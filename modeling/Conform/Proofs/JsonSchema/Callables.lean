import Conform.Proofs.JsonSchema.Outlines
import Mathlib.Data.List.Find

/-!
Functions in document schemas. A function without description is projected by its name; read as a
validator, it brings the text of its absent description with it (`Inference.typeOf?_none`). Wherever
a validator is put together with a part, its document schema shows the document schema of the part
in one place (`Validator.Uses.shows`), so a function is shown by its name and that text throughout
(`Schema.function_shown_within`).
-/
namespace Conform

namespace Inference

/-- The names that are looked for before those of null. -/
def beforeNull : List (List String × String) := typeNames.takeWhile fun entry => entry.2 ≠ "null"

/-- The type that a name suggests before the names of null are looked for. -/
def soonTypeOf? (name : String) : Option String :=
  (beforeNull.find? fun entry => entry.1.any (Text.words name).contains).map (·.2)

theorem typeOf?_of_words {texts : List String} :
    typeOf? texts =
      ((beforeNull.find? fun entry => entry.1.any (texts.flatMap Text.words).contains).or
      ((typeNames.dropWhile fun entry => entry.2 ≠ "null").find? fun entry =>
        entry.1.any (texts.flatMap Text.words).contains)).map (·.2) := by
  rw [beforeNull, ← List.find?_append, List.takeWhile_append_dropWhile]
  rfl

theorem typeOf?_of_soon {name type : String} (soon : soonTypeOf? name = some type) :
    typeOf? [name] = some type := by
  rw [typeOf?_of_words, Option.map_or, List.flatMap_singleton]
  exact Option.or_eq_some_iff.mpr (.inl soon)

/-- With the text of null beside it, a name suggests what it suggests soon, and null otherwise. -/
theorem typeOf?_none (name : String) :
    typeOf? [name, "None"] = some ((soonTypeOf? name).getD "null") := by
  have words : [name, "None"].flatMap Text.words = Text.words name ++ ["none"] := by
    have none : Text.words "None" = ["none"] := by decide
    simp only [List.flatMap_cons, List.flatMap_nil, List.append_nil, none]
  have others : ∀ entry ∈ beforeNull, "none" ∉ entry.1 := by decide
  have same : beforeNull.find? (fun entry => entry.1.any (Text.words name ++ ["none"]).contains) =
      beforeNull.find? (fun entry => entry.1.any (Text.words name).contains) := by
    refine List.find?_congr fun entry inside => ?_
    rw [Bool.eq_iff_iff, List.any_eq_true, List.any_eq_true]
    refine exists_congr fun usual => and_congr_right fun listed => ?_
    have different : usual ≠ "none" := fun none => others entry inside (none ▸ listed)
    simp [different]
  rw [typeOf?_of_words, words, Option.map_or, same]
  change (soonTypeOf? name).or _ = _
  have null : ((typeNames.dropWhile fun entry => entry.2 ≠ "null").find? fun entry =>
      entry.1.any (Text.words name ++ ["none"]).contains).map (·.2) = some "null" := by
    have row : typeNames.dropWhile (fun entry => entry.2 ≠ "null") = (["none", "null"], "null") ::
        [(["list", "array", "items"], "array"),
          (["dict", "object", "obj", "mapping"], "object")] := by decide
    have found : ["none", "null"].any (Text.words name ++ ["none"]).contains = true := by simp
    simp only [row, List.find?_cons, found, Option.map_some]
  rw [null]
  cases soonTypeOf? name <;> rfl

end Inference

def Kind.projectsChild (kind : Kind) : Bool :=
  kind.passesOn || kind = .nullable || kind = .nullish || kind = .array || kind = .set

/-- Whether a description of this kind is projected from all of its children in order. -/
def Kind.projectsAll : Kind → Bool
  | .union | .discriminatedUnion | .variant | .intersect | .tuple => true
  | _ => false

/-- The kind of the description that a constructor gives; some take over that of their part. -/
def Wrapper.kind? : Wrapper → Option Kind
  | .accepting kind _ | .rejecting kind _ => some kind
  | .withDefault _ => some .default
  | .fallback _ => some .fallback
  | .catching _ => some .catch
  | .refine _ _ => some .refine
  | .transform _ | .preprocess _ => some .transform
  | .bidirectional _ _ => some .codec
  | .array => some .array
  | .set => some .set
  | .retitled _ | .forward _ | .passthrough => none

/-- Where the description of a validator keeps a part: as only child, among its children by number
or by key, or as the parameter for what may follow. -/
inductive Slot where
  | child
  | position (index : Nat)
  | field (index : Nat) (key : Value)
  | further

/-- The validator is put together with the part in the slot. Of the steps of a sequence only the
first one counts: the others are projected to no fragment of their own. -/
inductive Validator.Uses (part : Validator) : Slot → Validator → Prop where
  | wrapped {kind : Kind} (wrapper : Wrapper) (described : wrapper.kind? = some kind)
      (projects : kind.projectsChild) : Uses part .child (wrapper.apply part)
  | joined {whole : Validator} (joining : Joining) (before after : List Validator)
      (made : joining.apply (before ++ part :: after) = .ok whole)
        (first : joining = .pipe → before = []) :
      Uses part (.position before.length) whole
  | positioned {whole : Validator} (before after : List Validator) (rest : Validator)
      (made : Validator.tupleWithRest (before ++ part :: after) rest = .ok whole) :
      Uses part (.position before.length) whole
  | following {whole : Validator} (items : List Validator)
      (made : Validator.tupleWithRest items part = .ok whole) :
      Uses part .further whole
  | object (before after : List (Value × Validator)) (key : Value) :
      Uses part (.field before.length key) (.object (before ++ (key, part) :: after))
  | looseObject (before after : List (Value × Validator)) (key : Value) :
      Uses part (.field before.length key) (.looseObject (before ++ (key, part) :: after))
  | objectWithRest (before after : List (Value × Validator)) (key : Value) (rest : Validator) :
      Uses part (.field before.length key) (.objectWithRest (before ++ (key, part) :: after) rest)
  | rest (fields : List (Value × Validator)) : Uses part .further (.objectWithRest fields part)
  | lenient {whole : Validator} (before after : List (Value × Validator)) (key : Value)
      (made : Schema.lenient (.validator (.object (before ++ (key, part) :: after))) = .ok whole) :
      Uses part (.field before.length key) whole
  | required {whole : Validator} (before after : List (Value × Validator)) (key : Value)
      (made : Schema.required (.validator (.object (before ++ (key, part) :: after))) = .ok whole) :
      Uses part (.field before.length key) whole
  | recordKey (value : Validator) : Uses part (.position 0) (.record part value)
  | recordValue (key : Validator) : Uses part (.position 1) (.record key part)
  | mapValue (key : Validator) : Uses part (.position 1) (.map key part)

/-- The description keeps the schema in the slot, and is projected from what it keeps there. -/
inductive Metadata.Keeps (part : Schema) : Slot → Metadata → Prop where
  | child {kind : Kind} {parameters : List (String × Parameter)} {docs : Documentation}
      {default : Value}
      (projects : kind.projectsChild) :
        Keeps part .child ⟨kind, parameters, .one part, docs, default⟩
  | first {parameters : List (String × Parameter)} {later : List Schema} {docs : Documentation}
      {default : Value} :
      Keeps part (.position 0) ⟨.pipe, parameters, .many (part :: later), docs, default⟩
  | listed {kind : Kind} {parameters : List (String × Parameter)} {index : Nat}
      {schemas : List Schema}
      {docs : Documentation} {default : Value}
      (projects : kind.projectsAll) (there : schemas[index]? = some part) :
      Keeps part (.position index) ⟨kind, parameters, .many schemas, docs, default⟩
  | key {parameters : List (String × Parameter)} {value : Schema} {docs : Documentation}
      {default : Value} :
      Keeps part (.position 0) ⟨.record, parameters, .many [part, value], docs, default⟩
  | value {kind : Kind} {parameters : List (String × Parameter)} {key : Schema}
      {docs : Documentation}
      {default : Value} (values : kind = .record ∨ kind = .map) :
      Keeps part (.position 1) ⟨kind, parameters, .many [key, part], docs, default⟩
  | field {kind : Kind} {parameters : List (String × Parameter)} {index : Nat} {key : Value}
      {entries : List (Value × Schema)} {docs : Documentation} {default : Value}
        (fields : kind.hasFields)
      (there : entries[index]? = some (key, part)) :
      Keeps part (.field index key) ⟨kind, parameters, .fields entries, docs, default⟩
  | further {kind : Kind} {children : Children} {docs : Documentation} {default : Value}
      (continues : kind = .objectWithRest ∨ kind = .tuple) :
      Keeps part .further ⟨kind, [("rest", .schema part)], children, docs, default⟩

namespace Validator

variable {part : Validator} {key : Value}

theorem getElem?_validators (before after : List Validator) :
    ((before ++ part :: after).map Schema.validator)[before.length]? = some (.validator part) := by
  rw [List.getElem?_map, List.getElem?_append_right (Nat.le_refl _), Nat.sub_self]
  rfl

theorem getElem?_fields (before after : List (Value × Validator)) :
    ((before ++ (key, part) :: after).map fun field =>
      (field.1, Schema.validator field.2))[before.length]? =
      some (key, .validator part) := by
  rw [List.getElem?_map, List.getElem?_append_right (Nat.le_refl _), Nat.sub_self]
  rfl

/-- What uses a part keeps it in its description, in the slot that the use names. -/
theorem Uses.keeps {part whole : Validator} {slot : Slot} (uses : Uses part slot whole) :
    ∃ metadata, whole.metadata = some metadata ∧ metadata.Keeps (.validator part) slot := by
  cases uses with
  | wrapped wrapper described projects =>
    cases wrapper <;> cases described <;> exact ⟨_, rfl, .child projects⟩
  | joined joining before after made first =>
    cases joining with
    | pipe =>
      cases first rfl
      change Validator.pipe (part :: after) = .ok whole at made
      obtain ⟨-, rfl⟩ := nonempty_of_made made
      exact ⟨_, rfl, .first⟩
    | _ =>
      obtain ⟨-, rfl⟩ := nonempty_of_made made
      exact ⟨_, rfl, .listed rfl (getElem?_validators before after)⟩
  | positioned before after rest made =>
    obtain ⟨-, rfl⟩ := nonempty_of_made made
    exact ⟨_, rfl, .listed rfl (getElem?_validators before after)⟩
  | following items made =>
    obtain ⟨-, rfl⟩ := nonempty_of_made made
    exact ⟨_, rfl, .further (.inr rfl)⟩
  | object before after | looseObject before after | objectWithRest before after =>
    exact ⟨_, rfl, .field rfl (getElem?_fields before after)⟩
  | rest => exact ⟨_, rfl, .further (.inl rfl)⟩
  | lenient before after key made =>
    cases made
    exact ⟨_, rfl, .field rfl (getElem?_fields before after)⟩
  | required before after key made =>
    obtain ⟨-, rfl⟩ := Value.showing_eq_ok.mp made
    exact ⟨_, rfl, .field rfl (getElem?_fields before after)⟩
  | recordKey => exact ⟨_, rfl, .key⟩
  | recordValue => exact ⟨_, rfl, .value (.inl rfl)⟩
  | mapValue => exact ⟨_, rfl, .value (.inr rfl)⟩

end Validator

def Kind.listing (draft : String) : Kind → String
  | .tuple => if draft = "draft-2020-12" then "prefixItems" else "items"
  | .intersect => "allOf"
  | _ => "anyOf"

/-- The keyword for what may follow the parts of a kind. -/
def Kind.continuation (draft : String) : Kind → String
  | .tuple => if draft = "draft-2020-12" then "items" else "additionalItems"
  | _ => "additionalProperties"

/-- The outline of a description shows a fragment for what the description keeps in a slot. -/
def Metadata.Shows (draft : String) (metadata : Metadata) (sub outline : Keywords) : Slot → Prop
  | .child => match metadata.kind with
    | .array | .set => Entries.get? outline (.str "items") = some (.object sub)
    | .nullable | .nullish => outline = sub.orNull
    | _ => outline = sub
  | .position index => match metadata.kind with
    | .pipe => ∃ first later, metadata.children = .many (first :: later) ∧
      outline = Projection.withChecks sub later
    | .record =>
      if index = 0 then Entries.get? outline (.str "propertyNames") =
        if sub.isEmpty || sub.isPlainText then none else some (.object sub)
      else Entries.get? outline (.str "additionalProperties") = some (.object sub)
    | .map => Entries.get? outline (.str "additionalProperties") = some (.object sub)
    | kind => ∃ items, Entries.get? outline (.str (kind.listing draft)) = some (.list items) ∧
      items[index]? = some (.object sub)
  | .field index key => ∃ properties,
      Entries.get? outline (.str "properties") = some (.object properties) ∧
    properties[index]? = some (key, .object sub)
  | .further => Entries.get? outline (.str (metadata.kind.continuation draft)) = some (.object sub)

namespace Projection

variable {draft : String} {onLazy : Nat → Eval Keywords} {world after : World}

theorem returns_bind_pure {α β : Type} {evaluation : Eval α} {value : α → β} {result : β} :
    (evaluation >>= fun first => pure (value first)).Returns world result after ↔
      ∃ first, evaluation.Returns world first after ∧ value first = result := by
  simp only [Eval.returns_bind, Eval.returns_pure]
  constructor
  · rintro ⟨first, between, returned, rfl, rfl⟩
    exact ⟨first, returned, rfl⟩
  · rintro ⟨first, returned, rfl⟩
    exact ⟨first, after, returned, rfl, rfl⟩

/-- The document schemas of several schemas stand at the places of the schemas. -/
theorem returns_ofSchemas {schemas : List Schema} {items : List Keywords}
    (returned : (ofSchemas draft onLazy schemas).Returns world items after) {index : Nat}
    {part : Schema}
    (there : schemas[index]? = some part) : ∃ sub start stop, items[index]? = some sub ∧
      (ofSchema draft onLazy part).Returns start sub stop := by
  induction schemas generalizing index world items with
  | nil => cases there
  | cons schema rest ih =>
    obtain ⟨keywords, between, one, others⟩ := Eval.returns_bind.mp returned
    obtain ⟨further, all, rfl⟩ := returns_bind_pure.mp others
    cases index with
    | zero =>
      cases there
      exact ⟨keywords, world, between, rfl, one⟩
    | succ index => exact ih all there

/-- The document schemas of named schemas stand under their keys. -/
theorem returns_ofFields {entries : List (Value × Schema)} {properties : Keywords}
    (returned : (ofFields draft onLazy entries).Returns world properties after)
    {index : Nat} {key : Value}
    {part : Schema} (there : entries[index]? = some (key, part)) : ∃ sub start stop,
      properties[index]? = some (key, .object sub) ∧
        (ofSchema draft onLazy part).Returns start sub stop := by
  induction entries generalizing index world properties with
  | nil => cases there
  | cons entry rest ih =>
    obtain ⟨keywords, between, one, others⟩ := Eval.returns_bind.mp returned
    obtain ⟨further, all, rfl⟩ := returns_bind_pure.mp others
    cases index with
    | zero =>
      cases there
      exact ⟨keywords, world, between, rfl, one⟩
    | succ index => exact ih all there

theorem returns_ofShape {listing : Listing} {entries : List (Value × Schema)} {object : Keywords}
    (returned : (ofShape draft onLazy listing (.fields entries)).Returns world object after) :
    ∃ properties, (ofFields draft onLazy entries).Returns world properties after ∧
      Entries.get? object (.str "properties") = some (.object properties) := by
  obtain ⟨properties, all, rfl⟩ := returns_bind_pure.mp returned
  refine ⟨properties, all, ?_⟩
  unfold objectOf
  split <;> rfl

theorem returns_ofRest {rest : Schema} {found : Option Keywords}
    (returned : (ofRest draft onLazy [("rest", .schema rest)]).Returns world found after) :
    ∃ sub, found = some sub ∧ (ofSchema draft onLazy rest).Returns world sub after := by
  obtain ⟨sub, one, rfl⟩ := returns_bind_pure.mp returned
  exact ⟨sub, rfl, one⟩

theorem returns_ofChild {schema : Schema} {found : Option Keywords}
    (returned : (ofChild draft onLazy (.one schema)).Returns world found after) :
    ∃ sub, found = some sub ∧ (ofSchema draft onLazy schema).Returns world sub after := by
  obtain ⟨sub, one, rfl⟩ := returns_bind_pure.mp returned
  exact ⟨sub, rfl, one⟩

theorem get?_tupleOf_positions (positions : List Keywords) (rest : Option Keywords)
    (isOpen : Bool) :
    Entries.get? (tupleOf draft positions rest isOpen) (.str (Kind.tuple.listing draft)) =
      some (.list (positions.map .object)) := by
  unfold tupleOf Kind.listing
  by_cases newest : draft = "draft-2020-12" <;> cases rest <;> cases isOpen <;>
    simp only [newest] <;> rfl

theorem get?_tupleOf_rest (positions : List Keywords) (rest : Keywords) (isOpen : Bool) :
    Entries.get? (tupleOf draft positions (some rest) isOpen)
      (.str (Kind.tuple.continuation draft)) =
      some (.object rest) := by
  unfold tupleOf Kind.continuation
  by_cases newest : draft = "draft-2020-12" <;> simp only [newest] <;> rfl

/-- What a description is projected to is its outline with its documentation. -/
theorem returns_outline {metadata : Metadata} {document : Keywords}
    (returned : (ofMetadata draft onLazy metadata).Returns world document after) :
    ∃ outline,
      (ofMetadata draft onLazy { metadata with docs := .empty, default :=
        .missing }).Returns world outline
      after ∧ document = outline.document metadata.docs metadata.default := by
  obtain ⟨kind, parameters, children, docs, default⟩ := metadata
  rw [ofMetadata_document] at returned
  obtain ⟨outline, outlined, rfl⟩ := returns_bind_pure.mp returned
  exact ⟨outline, outlined, rfl⟩

variable {kind : Kind} {parameters : List (String × Parameter)} {children : Children}
  {part : Schema}
  {outline : Keywords}

/-- A description that is projected from its child shows the document schema of the child. -/
theorem shows_child (projects : kind.projectsChild)
    (returned : (ofMetadata draft onLazy ⟨kind, parameters, .one part, .empty, .missing⟩).Returns
      world outline after) :
    ∃ sub start stop, (ofSchema draft onLazy part).Returns start sub stop ∧
      Metadata.Shows draft ⟨kind, parameters, .one part, .empty, .missing⟩ sub outline .child := by
  by_cases passes : kind.passesOn
  · rw [ofMetadata_passesOn passes] at returned
    obtain ⟨found, child, rfl⟩ := returns_bind_pure.mp returned
    obtain ⟨sub, rfl, one⟩ := returns_ofChild child
    refine ⟨sub, _, _, one, ?_⟩
    cases kind <;> first | rfl | cases passes
  · obtain ⟨described, made, rfl⟩ := returns_bind_pure.mp returned
    cases kind with
    | nullable | nullish | set =>
      obtain ⟨found, child, rfl⟩ := returns_bind_pure.mp made
      obtain ⟨sub, rfl, one⟩ := returns_ofChild child
      exact ⟨sub, _, _, one, rfl⟩
    | array =>
      obtain ⟨found, child, rfl⟩ := returns_bind_pure.mp made
      obtain ⟨sub, rfl, one⟩ := returns_ofChild child
      refine ⟨sub, _, _, one, (Entries.get?_merge_of_get?_eq_none ?_).trans rfl⟩
      refine Keywords.get?_eq_none_of_others fun entry inside => ?_
      obtain ⟨name, constraint, spelt⟩ := Keywords.spelt_of_mem_ofParameters inside
      exact ⟨name, spelt, fun same => absurd (same ▸ constraint) (by decide)⟩
    | _ => first | exact absurd rfl passes | cases projects

/-- A description that is projected from all children shows each at its position. -/
theorem shows_position {index : Nat} {schemas : List Schema} (projects : kind.projectsAll)
    (there : schemas[index]? = some part)
    (returned : (ofMetadata draft onLazy ⟨kind, parameters, .many schemas, .empty,
      .missing⟩).Returns world outline
      after) : ∃ sub start stop, (ofSchema draft onLazy part).Returns start sub stop ∧
      Metadata.Shows draft ⟨kind, parameters, .many schemas, .empty, .missing⟩ sub outline
        (.position index) := by
  obtain ⟨described, made, rfl⟩ := returns_bind_pure.mp returned
  -- every kind projects its parts first, and lists what they are projected to under its keyword
  obtain ⟨items, between, all, rest⟩ : ∃ items between,
    (ofSchemas draft onLazy schemas).Returns world items between ∧
      (items ≠ [] → Entries.get? described (.str (kind.listing draft)) =
        some (.list (items.map .object))) := by
    cases kind with
    | tuple =>
      obtain ⟨items, between, all, rest⟩ := Eval.returns_bind.mp made
      obtain ⟨further, -, rfl⟩ := returns_bind_pure.mp rest
      exact ⟨items, between, all, fun _ => get?_tupleOf_positions items further _⟩
    | union | discriminatedUnion | variant | intersect =>
      obtain ⟨items, all, rfl⟩ := returns_bind_pure.mp made
      refine ⟨items, after, all, fun nonempty => ?_⟩
      cases items with
      | nil => exact absurd rfl nonempty
      | cons => rfl
    | _ => cases projects
  obtain ⟨sub, start, stop, placed, one⟩ := returns_ofSchemas all there
  have nonempty : items ≠ [] := fun empty => by rw [empty] at placed; cases placed
  have shown : ∃ items, Entries.get? described (.str (kind.listing draft)) = some (.list items) ∧
      items[index]? = some (.object sub) :=
    ⟨_, rest nonempty, by rw [List.getElem?_map, placed]; rfl⟩
  refine ⟨sub, start, stop, one, ?_⟩
  cases kind <;> first | exact shown | cases projects

/-- A description with named fields shows the document schema of each under its key. -/
theorem shows_field {index : Nat} {key : Value} {entries : List (Value × Schema)}
    (fields : kind.hasFields) (there : entries[index]? = some (key, part))
    (returned : (ofMetadata draft onLazy ⟨kind, parameters, .fields entries, .empty,
      .missing⟩).Returns world outline
      after) : ∃ sub start stop, (ofSchema draft onLazy part).Returns start sub stop ∧
      Metadata.Shows draft ⟨kind, parameters, .fields entries, .empty, .missing⟩ sub outline
        (.field index key) := by
  obtain ⟨described, made, rfl⟩ := returns_bind_pure.mp returned
  obtain ⟨properties, start, stop, all, found⟩ : ∃ properties start stop,
      (ofFields draft onLazy entries).Returns start properties stop ∧
        Entries.get? described (.str "properties") = some (.object properties) := by
    cases kind with
    | object | partialObject | required =>
      obtain ⟨properties, all, found⟩ := returns_ofShape made
      exact ⟨properties, _, _, all, found⟩
    | looseObject =>
      obtain ⟨object, shaped, rfl⟩ := returns_bind_pure.mp made
      obtain ⟨properties, all, found⟩ := returns_ofShape shaped
      exact ⟨properties, _, _, all, (Entries.get?_insert ..).trans found⟩
    | objectWithRest =>
      obtain ⟨rest, first, further, made⟩ := Eval.returns_bind.mp made
      obtain ⟨object, shaped, rfl⟩ := returns_bind_pure.mp made
      obtain ⟨properties, all, found⟩ := returns_ofShape shaped
      exact ⟨properties, _, _, all, (Entries.get?_insert ..).trans found⟩
    | _ => cases fields
  obtain ⟨sub, start, stop, placed, one⟩ := returns_ofFields all there
  exact ⟨sub, start, stop, one, properties, found, placed⟩

/-- The schema of what follows is shown beside the document schemas of the declared parts. -/
theorem shows_further (continues : kind = .objectWithRest ∨ kind = .tuple)
    (returned : (ofMetadata draft onLazy ⟨kind, [("rest", .schema part)], children, .empty,
      .missing⟩).Returns world
      outline after) : ∃ sub start stop, (ofSchema draft onLazy part).Returns start sub stop ∧
      Metadata.Shows draft ⟨kind, [("rest", .schema part)], children, .empty, .missing⟩ sub outline
        .further := by
  obtain ⟨described, made, rfl⟩ := returns_bind_pure.mp returned
  rcases continues with rfl | rfl
  · obtain ⟨rest, between, further, made⟩ := Eval.returns_bind.mp made
    obtain ⟨object, shaped, rfl⟩ := returns_bind_pure.mp made
    obtain ⟨sub, rfl, one⟩ := returns_ofRest further
    exact ⟨sub, _, _, one, Entries.get?_insert_self ..⟩
  · obtain ⟨items, between, all, made⟩ := Eval.returns_bind.mp made
    obtain ⟨rest, further, rfl⟩ := returns_bind_pure.mp made
    obtain ⟨sub, rfl, one⟩ := returns_ofRest further
    exact ⟨sub, _, _, one, get?_tupleOf_rest items sub
      (isTrue (Entries.get? [("rest", .schema part)] "loose"))⟩

/-- A key and a value are projected value first. -/
theorem shows_key {value : Schema}
    (returned : (ofMetadata draft onLazy ⟨.record, parameters, .many [part, value], .empty,
      .missing⟩).Returns world
      outline after) : ∃ sub start stop, (ofSchema draft onLazy part).Returns start sub stop ∧
      Metadata.Shows draft ⟨.record, parameters, .many [part, value], .empty, .missing⟩ sub outline
        (.position 0) := by
  obtain ⟨described, made, rfl⟩ := returns_bind_pure.mp returned
  obtain ⟨⟨shown, sub⟩, both, rfl⟩ := returns_bind_pure.mp made
  obtain ⟨first, between, one, rest⟩ := Eval.returns_bind.mp both
  obtain ⟨second, other, same⟩ := returns_bind_pure.mp rest
  cases same
  refine ⟨sub, _, _, other, ?_⟩
  change Entries.get? (if sub.isEmpty || sub.isPlainText then _ else _) _ = _
  split <;> rfl

/-- A dictionary shows the document schema of its values. -/
theorem shows_value {key : Schema} (values : kind = .record ∨ kind = .map)
    (returned : (ofMetadata draft onLazy ⟨kind, parameters, .many [key, part], .empty,
      .missing⟩).Returns world
      outline after) : ∃ sub start stop, (ofSchema draft onLazy part).Returns start sub stop ∧
      Metadata.Shows draft ⟨kind, parameters, .many [key, part], .empty, .missing⟩ sub outline
        (.position 1) := by
  obtain ⟨described, made, rfl⟩ := returns_bind_pure.mp returned
  rcases values with rfl | rfl
  · obtain ⟨⟨sub, named⟩, both, rfl⟩ := returns_bind_pure.mp made
    obtain ⟨first, between, one, rest⟩ := Eval.returns_bind.mp both
    obtain ⟨second, -, same⟩ := returns_bind_pure.mp rest
    cases same
    refine ⟨sub, _, _, one, ?_⟩
    change Entries.get? (if named.isEmpty || named.isPlainText then _ else _) _ = _
    split <;> rfl
  · obtain ⟨sub, one, rfl⟩ := returns_bind_pure.mp made
    exact ⟨sub, _, _, one, rfl⟩

/-- The outline of a description shows, for what it keeps in a slot, the document schema of that. -/
theorem shows_of_keeps {metadata : Metadata} {slot : Slot} (keeps : metadata.Keeps part slot)
    (returned : (ofMetadata draft onLazy { metadata with docs := .empty, default :=
      .missing }).Returns world outline
      after) : ∃ sub start stop, (ofSchema draft onLazy part).Returns start sub stop ∧
      metadata.Shows draft sub outline slot := by
  cases keeps with
  | child projects => exact shows_child projects returned
  | first =>
    obtain ⟨described, made, rfl⟩ := returns_bind_pure.mp returned
    obtain ⟨sub, one, rfl⟩ := returns_bind_pure.mp made
    exact ⟨sub, _, _, one, part, _, rfl, rfl⟩
  | listed projects there => exact shows_position projects there returned
  | key => exact shows_key returned
  | value values => exact shows_value values returned
  | field fields there => exact shows_field fields there returned
  | further continues => exact shows_further continues returned

end Projection

namespace Validator

open Projection

variable {draft : String} {onLazy : Nat → Eval Keywords} {world after : World}
  {part whole : Validator} {slot : Slot}
  {document : Keywords}

/-- The document schema of a validator shows a fragment for what the validator keeps in a slot. -/
def Shows (draft : String) (whole : Validator) (slot : Slot) (sub document : Keywords) : Prop :=
  ∃ metadata outline, whole.metadata = some metadata ∧ metadata.Shows draft sub outline slot ∧
    document = outline.document metadata.docs metadata.default

/-- The document schema of a validator shows the document schema of each part. -/
theorem Uses.shows (uses : Uses part slot whole)
    (returned : (ofSchema draft onLazy (.validator whole)).Returns world document after) :
    ∃ sub start stop, (ofSchema draft onLazy (.validator part)).Returns start sub stop ∧
      whole.Shows draft slot sub document := by
  obtain ⟨metadata, described, keeps⟩ := uses.keeps
  obtain ⟨rule, _, codec⟩ := whole
  cases described
  obtain ⟨outline, outlined, rfl⟩ := returns_outline returned
  obtain ⟨sub, start, stop, one, shown⟩ := shows_of_keeps keeps outlined
  exact ⟨sub, start, stop, one, metadata, outline, rfl, shown, rfl⟩

/-- The outermost of the validators around a part. -/
def outermost (part : Validator) : List (Slot × Validator) → Validator
  | [] => part
  | (_, whole) :: _ => whole

/-- Each of the validators uses the one after it in the slot, and the last one the part. -/
def Nested (part : Validator) : List (Slot × Validator) → Prop
  | [] => True
  | (slot, whole) :: inner => Uses (outermost part inner) slot whole ∧ Nested part inner

/-- The document schema shows a fragment, slot by slot from the outermost validator to the part. -/
def ShownWithin (draft : String) (sub : Keywords) : List (Slot × Validator) → Keywords → Prop
  | [], document => document = sub
  | (slot, whole) :: inner, document =>
    ∃ between, ShownWithin draft sub inner between ∧ whole.Shows draft slot between document

/-- However deep a part is nested, its document schema is shown. -/
theorem Nested.shown {levels : List (Slot × Validator)} (nested : Nested part levels)
    (returned : (ofSchema draft onLazy (.validator (outermost part levels))).Returns world
      document after) :
    ∃ sub start stop, (ofSchema draft onLazy (.validator part)).Returns start sub stop ∧
      ShownWithin draft sub levels document := by
  induction levels generalizing world document after with
  | nil => exact ⟨document, world, after, returned, rfl⟩
  | cons level inner ih =>
    obtain ⟨uses, within⟩ := nested
    obtain ⟨between, start, stop, one, shown⟩ := uses.shows returned
    obtain ⟨sub, first, last, projected, deeper⟩ := ih within one
    exact ⟨sub, first, last, projected, between, deeper, shown⟩

end Validator

namespace Keywords

theorem inferred_none (name : String) :
    inferred [name, "None"] = ofType ((Inference.soonTypeOf? name).getD "null") := by
  rw [inferred, Inference.typeOf?_none]
  rfl

/-- The text of an absent description makes no difference to a name that suggests a type before null
is looked for, or null itself; to others it does. -/
theorem inferred_none_iff (name : String) : inferred [name, "None"] = inferred [name] ↔
    (Inference.soonTypeOf? name).isSome ∨ Inference.typeOf? [name] = some "null" := by
  rw [inferred_none]
  cases soon : Inference.soonTypeOf? name with
  | some type => simp [inferred, Inference.typeOf?_of_soon soon]
  | none =>
    cases found : Inference.typeOf? [name] with
    | none => simp [inferred, found, ofType]
    | some type => simp [inferred, found, ofType, eq_comm]

end Keywords

namespace Schema

open Validator

/-- A function is projected by its name, and by its name with the text of an absent description once
it is read as a validator; the same is shown for it wherever it is used, at any depth. A wrapper
that takes over the absent description is projected to null. The two are the same for names that
suggest text, a number, a truth value or null, and for no other name. -/
theorem function_shown_within (f : Callable) {draft address : String}
    (known : Settings.draftAddress? draft = some address) : ∃ v,
      (Schema.function f).toValidator = .ok v ∧
    (∀ world, (toDocument ⟨false, some draft, false, []⟩ (.function f)).Returns world
      (.inferred [f.name]) world ∧
      (toDocument ⟨false, some draft, false, []⟩ (.validator v)).Returns world
        (.inferred [f.name, "None"]) world) ∧
    (∀ levels, Nested v levels → ∀ world document after,
      (toDocument ⟨false, some draft, false, []⟩ (.validator (outermost v levels))).Returns world
        document after →
        ShownWithin draft (.inferred [f.name, "None"]) levels document) ∧
    (∀ wrapper : Wrapper, wrapper.kind? = none → ∀ world,
      (toDocument ⟨false, some draft, false, []⟩ (.validator (wrapper.apply v))).Returns world
        (.ofType "null") world) ∧
    (Keywords.inferred [f.name, "None"] = .inferred [f.name] ↔
      (Inference.soonTypeOf? f.name).isSome ∨ Inference.typeOf? [f.name] = some "null") := by
  have projected : ∀ onLazy, Projection.ofSchema draft onLazy (.validator (.of (.plain f) none)) =
      pure (.inferred [f.name, "None"]) := fun _ => rfl
  refine ⟨.of (.plain f) none, rfl, fun world =>
    ⟨returns_toDocument known false (fun _ => rfl) world,
    returns_toDocument known false projected world⟩, ?_, ?_, Keywords.inferred_none_iff f.name⟩
  · intro levels nested world document after returned
    rw [Eval.Returns, ending_toDocument (known ▸ rfl)] at returned
    obtain ⟨_, _, -, projects⟩ := Eval.returns_bind.mp returned
    obtain ⟨sub, start, stop, one, shown⟩ := nested.shown projects
    obtain ⟨rfl, -⟩ := Eval.returns_pure.mp one
    exact shown
  · intro wrapper taken world
    refine returns_toDocument known false (fun onLazy => ?_) world
    have none : Inference.typeOf? ["None"] = some "null" := by decide
    have null : Keywords.inferred ["None"] = .ofType "null" := by rw [Keywords.inferred, none]; rfl
    cases wrapper <;> cases taken <;> exact congrArg pure null

/-- A function that passes everything on. -/
private def passing (name : String) : Callable := ⟨name, pure⟩

/-- A function by the name of a type is shown by it, in a list of optional items. -/
theorem function_shown_in_optional_items :
    Settings.draftAddress? "draft-07" = some "http://json-schema.org/draft-07/schema#" ∧
    ∃ v, (Schema.function (passing "to_text")).toValidator = .ok v ∧
      Keywords.inferred ["to_text", "None"] = .ofType "string" ∧
      (toDocument ⟨false, some "draft-07", false, []⟩ (.validator (.array (.optional v)))).Returns
        (World.initial "")
        ((Keywords.ofType "array").put "items" (.object (Keywords.ofType "string")))
          (World.initial "") ∧
      ShownWithin "draft-07" (.ofType "string") [(.child, .array (.optional v)),
        (.child, .optional v)]
        ((Keywords.ofType "array").put "items" (.object (Keywords.ofType "string"))) := by
  have known : Settings.draftAddress? "draft-07" =
    some "http://json-schema.org/draft-07/schema#" := by decide
  obtain ⟨v, read, alone, within, -⟩ := function_shown_within (passing "to_text") known
  have text : Keywords.inferred ["to_text", "None"] = .ofType "string" := by
    rw [Keywords.inferred_none, show Inference.soonTypeOf? "to_text" = some "string" by decide]
    rfl
  cases read
  have returned : (toDocument ⟨false, some "draft-07", false, []⟩ (.validator (.array (.optional
      (.of (.plain (passing "to_text")) none))))).Returns (World.initial "")
      ((Keywords.ofType "array").put "items" (.object (Keywords.ofType "string")))
        (World.initial "") := rfl
  refine ⟨known, _, rfl, text, returned, ?_⟩
  have shown := within [(.child, .array (.optional (.of (.plain (passing "to_text")) none))),
    (.child, .optional (.of (.plain (passing "to_text")) none))]
    ⟨.wrapped .array rfl rfl, .wrapped (.accepting .optional .missing) rfl rfl, trivial⟩
      _ _ _ returned
  rw [← text]
  exact shown

/-- A function whose name suggests nothing: as it stands, nothing is said about what it takes, and
read as a validator it is said to take null. -/
theorem nameless_function_shown_as_null : ∃ v,
    (Schema.function (passing "frobnicate")).toValidator = .ok v ∧
    (toDocument ⟨false, some "draft-07", false, []⟩ (.function (passing "frobnicate"))).Returns
      (World.initial "") []
      (World.initial "") ∧
    (toDocument ⟨false, some "draft-07", false, []⟩ (.validator v)).Returns (World.initial "")
      (.ofType "null")
      (World.initial "") := by
  refine ⟨_, rfl, rfl, rfl⟩

end Schema

end Conform
