import Conform.Proofs.JsonSchema.Outlines
import Conform.Proofs.RecordModel.Mirroring

/-!
Which fields a document schema lists as required, and which fields have to be there. The list goes
by the outermost wrapper of a field, whether absence is accepted by all of them: what is not listed
may be absent always, what is listed must be there unless a wrapper that accepts absence lies under
one that is not known to (`Validator.required_iff_rejects`).
-/
namespace Conform

namespace Keywords

theorem requires_objectOf {properties : Keywords} {keys : List Value} {key : Value} :
    (Projection.objectOf properties keys).Requires key ↔ key ∈ keys := by
  have found : Entries.get? (Projection.objectOf properties keys) (.str "required") =
      if keys.isEmpty then none else some (.value (.list keys)) := by
    unfold Projection.objectOf
    split <;> rfl
  rw [Requires, found]
  cases keys with
  | nil => simp
  | cons first rest => simp

variable {keywords : Keywords} {key : Value}

theorem requires_put {name : String} (other : name ≠ "required") (fragment : Fragment) :
    (keywords.put name fragment).Requires key ↔ keywords.Requires key := by
  unfold Requires put
  rw [Entries.get?_insert_of_ne other]

theorem requires_document (docs : Documentation) (default : Value) :
    (keywords.document docs default).Requires key ↔ keywords.Requires key := by
  unfold Requires
  rw [ValueType.sameLook_document docs default "required" (by decide)]

end Keywords

namespace Validator

open Checked Projection SafeForm

/-- What a validator makes of an absent value, whatever lazy schemas stand for: it gives the value,
or with none it reports a failure. -/
def MakesOfAbsent (v : Validator) : Option Value → Prop
  | some y => ∀ onLazy, v.rule.safe onLazy .missing = pure y
  | none => ∃ failure, ∀ onLazy, v.rule.safe onLazy .missing = reject failure

/-- A type check or an exact value under any number of wrappers, with what it gives for an absent
value and with whether its description told that absence is accepted. -/
inductive Stacked : Option Value → Bool → Validator → Prop
  | leaf {l : Leaf} (named : l.typeName?.isSome) : Stacked none false (.leaf l)
  | literal (value : Value) :
      Stacked (if value.isMissing then some value else none) false (.literal value)
  | optional {given : Option Value} {marked : Bool} {v : Validator}
      (inner : Stacked given marked v) :
      Stacked (some .missing) true v.optional
  | exactOptional {given : Option Value} {marked : Bool} {v : Validator}
      (inner : Stacked given marked v) :
      Stacked (some .missing) true v.exactOptional
  | nullish {given : Option Value} {marked : Bool} {v : Validator}
      (inner : Stacked given marked v) :
      Stacked (some .missing) true v.nullish
  | withDefault {given : Option Value} {marked : Bool} {v : Validator} (value : Value)
      (inner : Stacked given marked v) : Stacked (some value) true (v.withDefault value)
  | nullable {given : Option Value} {marked : Bool} {v : Validator}
      (inner : Stacked given marked v) :
      Stacked given false v.nullable
  | nonNullable {given : Option Value} {marked : Bool} {v : Validator}
      (inner : Stacked given marked v) :
      Stacked (given.filter fun y => !Absence.null.covers y) false v.nonNullable
  | nonNullish {given : Option Value} {marked : Bool} {v : Validator}
      (inner : Stacked given marked v) :
      Stacked (given.filter fun y => !Absence.either.covers y) false v.nonNullish
  | nonOptional {given : Option Value} {marked : Bool} {v : Validator}
      (inner : Stacked given marked v) :
      Stacked (given.filter fun y => !Absence.missing.covers y) false v.nonOptional
  | redocument {given : Option Value} {marked : Bool} {v : Validator}
      (change : Documentation → Documentation)
      (inner : Stacked given marked v) : Stacked given marked (v.redocument change)
  | alone {given : Option Value} {marked : Bool} {v w : Validator}
      (made : Validator.pipe [v] = .ok w)
      (inner : Stacked given marked v) : Stacked given false w

variable {draft : String} {given : Option Value} {marked : Bool} {v w : Validator}
  {fields : List (Value × Validator)}

section Absence

/-- Behind a wrapper that rejects absence an absent value gives what is not absent. -/
theorem MakesOfAbsent.rejecting {inner : Validator}
    (makes : inner.MakesOfAbsent given) (kind : Kind) (absence : Absence) :
    (Validator.rejecting kind absence inner).MakesOfAbsent
      (given.filter fun y => !absence.covers y) := by
  cases given with
  | none =>
    obtain ⟨failure, refused⟩ := makes
    refine ⟨failure, fun onLazy => ?_⟩
    change inner.rule.safe onLazy .missing >>= _ = _
    rw [refused]
    rfl
  | some y =>
    have reduced : ∀ onLazy, (Validator.rejecting kind absence inner).rule.safe onLazy .missing =
        provided (!absence.covers y) (.plain (absenceMessage absence)) y := fun onLazy => by
      change inner.rule.safe onLazy .missing >>= _ = _
      rw [makes onLazy, pure_bind]
    cases covered : absence.covers y with
    | true =>
      rw [Option.filter_some, covered]
      exact ⟨_, fun onLazy => by rw [reduced, covered]; rfl⟩
    | false =>
      rw [Option.filter_some, covered]
      exact fun onLazy => by rw [reduced, covered]; rfl

/-- A stack of wrappers makes of an absent value what is said of the stack. -/
theorem Stacked.makesOfAbsent (stacked : Stacked given marked v) : v.MakesOfAbsent given := by
  induction stacked with
  | @leaf l named =>
    have refused : l.accepts .missing = false := by cases l <;> first | rfl | cases named
    exact ⟨_, fun onLazy => if_neg (Bool.eq_false_iff.mp refused)⟩
  | literal value =>
    cases value with
    | missing => exact fun _ => rfl
    | _ => exact ⟨_, fun _ => rfl⟩
  | optional | exactOptional | nullish | withDefault => exact fun _ => rfl
  | @nullable given _ v _ ih => cases given <;> exact ih
  | nonNullable _ ih => exact ih.rejecting .nonNullable .null
  | nonNullish _ ih => exact ih.rejecting .nonNullish .either
  | nonOptional _ ih => exact ih.rejecting .nonOptional .missing
  | @redocument given _ v _ _ ih => cases given <;> exact ih
  | @alone given _ _ _ made _ ih =>
    obtain ⟨-, rfl⟩ := nonempty_of_made made
    cases given <;> exact ih

/-- A validator accepts an absent value just if it gives something for it. -/
theorem MakesOfAbsent.returns_iff (makes : v.MakesOfAbsent given) (world : World) :
    (∃ y, (v.safe .missing).Returns world y world) ↔ given.isSome := by
  cases given with
  | some y => simp [safe_of_rule makes]
  | none =>
    obtain ⟨failure, refused⟩ := makes
    simp [safe_of_rule refused]

theorem MakesOfAbsent.reports_iff (makes : v.MakesOfAbsent given) (world : World) :
    (∃ failure, (v.safe .missing).Reports world failure world) ↔ given.isSome = false := by
  cases given with
  | some y => simp [safe_of_rule makes]
  | none =>
    obtain ⟨failure, refused⟩ := makes
    simp [safe_of_rule refused]

end Absence

/-- What is said to accept absence does. -/
theorem Stacked.isSome_of_marked (stacked : Stacked given marked v) (told : marked = true) :
    given.isSome = true := by
  induction stacked with
  | optional | exactOptional | nullish | withDefault => rfl
  | redocument _ _ ih => exact ih told
  | _ => cases told

/-- A field is listed as required unless it is said to accept absence. -/
theorem Stacked.lists (stacked : Stacked given marked v) :
    Listing.byKind.lists (.validator v) = !marked := by
  induction stacked with
  | @leaf l named => cases l <;> rfl
  | @redocument _ _ v _ _ ih =>
    rw [← ih]
    obtain ⟨rule, metadata | metadata, codec⟩ := v <;> rfl
  | alone made =>
    obtain ⟨-, rfl⟩ := nonempty_of_made made
    rfl
  | _ => rfl

/-- A stack of wrappers has an outline in every dialect. -/
theorem Stacked.outlined (stacked : Stacked given marked v) (draft : String) :
    ∃ outline, Outlined draft v outline := by
  induction stacked with
  | @leaf l named => cases l <;> exact ⟨_, outlined_of_metadata rfl fun _ => rfl⟩
  | literal value => exact ⟨_, outlined_of_metadata rfl fun _ => rfl⟩
  | optional _ ih | exactOptional _ ih | nonNullable _ ih | nonNullish _ ih | nonOptional _ ih
  | withDefault _ _ ih =>
    obtain ⟨outline, inner⟩ := ih
    exact ⟨_, inner.wrapping rfl rfl⟩
  | nullable _ ih =>
    obtain ⟨outline, inner⟩ := ih
    exact ⟨_, inner.orNull (.inl rfl) rfl⟩
  | nullish _ ih =>
    obtain ⟨outline, inner⟩ := ih
    exact ⟨_, inner.orNull (.inr rfl) rfl⟩
  | redocument change _ ih =>
    obtain ⟨outline, inner⟩ := ih
    exact ⟨_, inner.redocument change⟩
  | alone made _ ih =>
    obtain ⟨outline, inner⟩ := ih
    exact ⟨_, inner.pipe made⟩

/-- An object of the fields, in one of the three modes and with any documentation. -/
inductive ObjectOf (draft : String) (fields : List (Value × Validator)) : Validator → Prop
  | object : ObjectOf draft fields (.object fields)
  | looseObject : ObjectOf draft fields (.looseObject fields)
  | objectWithRest {rest : Validator} {outline : Keywords} (further : Outlined draft rest outline) :
      ObjectOf draft fields (.objectWithRest fields rest)
  | redocument {v : Validator} (change : Documentation → Documentation)
      (inner : ObjectOf draft fields v) :
      ObjectOf draft fields (v.redocument change)

/-- The keys of the fields that are not said to accept absence. -/
def listedKeys (fields : List (Value × Validator)) : List Value :=
  (fields.filter fun field => Listing.byKind.lists (.validator field.2)).map (·.1)

/-- The document schema of an object lists the keys of the fields that are not said to accept
absence. -/
theorem ObjectOf.outlined (shape : ObjectOf draft fields v)
    (outlined : ∀ field ∈ fields, ∃ outline, Outlined draft field.2 outline) :
    ∃ outline, Outlined draft v outline ∧ ∀ key,
      outline.Requires key ↔ key ∈ listedKeys fields := by
  have projected : AllProjected draft
      ((fields.map fun field => (field.1, Schema.validator field.2)).map (·.2)) := by
    intro schema member
    rw [List.map_map, List.mem_map] at member
    obtain ⟨field, inside, rfl⟩ := member
    obtain ⟨outline, known⟩ := outlined field inside
    exact ⟨_, known.projected⟩
  obtain ⟨properties, named⟩ := exists_ofShape projected .byKind
  have shaped : ∀ onLazy, ofShape draft onLazy .byKind (.ofFields fields) =
      pure (objectOf properties (listedKeys fields)) := by
    intro onLazy
    rw [Children.ofFields, named, List.filter_map, List.map_map]
    rfl
  induction shape with
  | object =>
    exact ⟨objectOf properties (listedKeys fields),
      outlined_of_metadata rfl fun onLazy => ofMetadata_object.trans (shaped onLazy),
      fun _ => Keywords.requires_objectOf⟩
  | looseObject =>
    refine ⟨(objectOf properties (listedKeys fields)).putValue "additionalProperties" (.bool true),
      outlined_of_metadata rfl fun onLazy => ofMetadata_looseObject (shaped onLazy), fun key => ?_⟩
    exact (Keywords.requires_put (by decide) _).trans Keywords.requires_objectOf
  | @objectWithRest rest outline further =>
    refine ⟨(objectOf properties (listedKeys fields)).put "additionalProperties"
      (.object (rest.annotated outline)),
      outlined_of_metadata rfl fun onLazy =>
        ofMetadata_objectWithRest (further.projected onLazy) (shaped onLazy),
      fun key => ?_⟩
    exact (Keywords.requires_put (by decide) _).trans Keywords.requires_objectOf
  | redocument change _ ih =>
    obtain ⟨outline, known, requires⟩ := ih
    exact ⟨outline, known.redocument change, requires⟩

/-- Of fields with different names just those are listed that are not said to accept absence. -/
theorem mem_listedKeys_iff (distinct : Entries.Distinct fields) {field : Value × Validator}
    (member : field ∈ fields) :
    field.1 ∈ listedKeys fields ↔ Listing.byKind.lists (.validator field.2) = true := by
  rw [listedKeys, List.mem_map]
  constructor
  · rintro ⟨other, kept, equal⟩
    obtain ⟨inside, lists⟩ := List.mem_filter.mp kept
    have only : other = field := distinct.unique inside member (by rw [equal, BEq.refl])
    rwa [← only]
  · exact fun lists => ⟨field, List.mem_filter.mpr ⟨member, lists⟩, rfl⟩

/-- The document schema of an object lists a field as required, or else the field accepts an absent
value; and it lists just the fields that reject one, as long as what accepts one says so. -/
theorem required_iff_rejects (shape : ObjectOf draft fields v) (distinct : Entries.Distinct fields)
    (stacked : ∀ field ∈ fields, ∃ given marked, Stacked given marked field.2)
    (known : (Settings.draftAddress? draft).isSome) (includeAddress : Bool) :
    ∃ keywords,
      (∀ world,
        (Schema.toDocument ⟨includeAddress, some draft, false, []⟩ (.validator v)).Returns world
        keywords world) ∧
      ∀ field ∈ fields, ∀ given marked, Stacked given marked field.2 → ∀ world,
        (keywords.Requires field.1 ∨ ∃ y, (field.2.safe .missing).Returns world y world) ∧
        ((keywords.Requires field.1 ↔ ∃ failure,
          (field.2.safe .missing).Reports world failure world) ↔
          (given.isSome → marked)) := by
  obtain ⟨outline, outlined, requires⟩ := shape.outlined fun field member =>
    (stacked field member).elim fun _ ⟨_, stack⟩ => stack.outlined draft
  obtain ⟨address, found⟩ := Option.isSome_iff_exists.mp known
  have returned := Schema.returns_toDocument found includeAddress outlined.projected
  refine ⟨_, returned, fun field member given marked stack world => ?_⟩
  have listed : (if includeAddress then (v.annotated outline).putValue "$schema" (.str address)
      else v.annotated outline).Requires field.1 ↔ marked = false := by
    have annotated : (v.annotated outline).Requires field.1 ↔ marked = false := by
      rw [Validator.annotated, Keywords.requires_document, requires,
        mem_listedKeys_iff distinct member, stack.lists]
      simp
    split
    · exact (Keywords.requires_put (by decide) _).trans annotated
    · exact annotated
  have makes := stack.makesOfAbsent
  have accepts := stack.isSome_of_marked
  rw [listed, makes.returns_iff world, makes.reports_iff world]
  refine ⟨?_, ?_⟩
  · cases marked with
    | false => exact .inl rfl
    | true => exact .inr (accepts rfl)
  · revert accepts
    cases marked <;> cases given.isSome <;> decide

/-- A field that has to be there, one that need not be, and one of which absence is refused after
all. -/
private def enrolment : List (Value × Validator) := [
  (.str "id", (leaf .integer).brand (.str "Id")),
  (.str "note", nullish (nullable (leaf .string))),
  (.str "mark", nullable (nonOptional (optional (literal (.str "x")))))]

/-- Of the three fields the first and the last are listed, as they reject an absent value, and the
second is not. -/
theorem enrolment_lists_rejecting :
    ObjectOf "draft-07" enrolment ((object enrolment).document .empty) ∧
      Entries.Distinct enrolment ∧
    (∀ field ∈ enrolment, ∃ given marked, Stacked given marked field.2) ∧
    (Settings.draftAddress? "draft-07").isSome ∧
    ∃ keywords,
      (Schema.toDocument ⟨true, some "draft-07", false, []⟩
        (.validator ((object enrolment).document .empty))).Returns (World.initial "") keywords
          (World.initial "") ∧
      keywords.Requires (.str "id") ∧ ¬keywords.Requires (.str "note") ∧
        keywords.Requires (.str "mark") := by
  have shape : ObjectOf "draft-07" enrolment ((object enrolment).document .empty) :=
    .redocument (·.overlay .empty) .object
  have distinct : Entries.Distinct enrolment := by decide
  have known : (Settings.draftAddress? "draft-07").isSome := rfl
  have id : Stacked none false ((leaf .integer).brand (.str "Id")) :=
    .redocument (fun docs => { docs with brand := Documentation.said (.str "Id") }) (.leaf rfl)
  have note : Stacked (some .missing) true (nullish (nullable (leaf .string))) :=
    .nullish (.nullable (.leaf rfl))
  have mark : Stacked none false (nullable (nonOptional (optional (literal (.str "x"))))) :=
    .nullable (.nonOptional (.optional (.literal (.str "x"))))
  have stacked : ∀ field ∈ enrolment, ∃ given marked, Stacked given marked field.2 :=
    List.forall_mem_cons.mpr ⟨⟨_, _, id⟩, List.forall_mem_cons.mpr ⟨⟨_, _, note⟩,
      List.forall_mem_singleton.mpr ⟨_, _, mark⟩⟩⟩
  obtain ⟨keywords, returned, listed⟩ := required_iff_rejects shape distinct stacked known true
  refine ⟨shape, distinct, stacked, known, keywords, returned _, ?_, ?_, ?_⟩
  · exact ((listed _ (.head _) none false id (World.initial "")).2.mpr nofun).mpr ⟨_, rfl⟩
  · intro requires
    obtain ⟨failure, refused⟩ :=
      ((listed _ (.tail _ (.head _)) (some .missing) true note (World.initial "")).2.mpr fun _ =>
        rfl).mp requires
    cases refused
  · exact ((listed _ (.tail _ (.tail _ (.head _))) none false mark (World.initial "")).2.mpr
      nofun).mpr ⟨_, rfl⟩

/-- Null beside what may be absent is listed as required, although it may be absent as well. -/
theorem not_all_required_iff_rejects :
    ∃ keywords,
      (Schema.toDocument ⟨false, some "draft-2020-12", false, []⟩
        (.validator (object [(.str "a", nullable (optional (leaf .string)))]))).Returns
          (World.initial "") keywords
          (World.initial "") ∧
      keywords.Requires (.str "a") ∧
      ((nullable (optional (leaf .string))).safe .missing).Returns (World.initial "") .missing
        (World.initial "") := ⟨_, rfl, ⟨_, rfl, .head _⟩, rfl⟩

end Validator

end Conform
