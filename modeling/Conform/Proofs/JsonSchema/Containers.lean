import Conform.Proofs.JsonSchema.Admission

/-!
What the fragments of arrays, tuples and objects admit, in terms of the fragments of their parts.
-/
namespace Conform

namespace Keywords

open Meaning Keyword

variable {draft : String} {x : Value}

/-- Where no prefix is listed, `items` admits what has admitted elements only. -/
private theorem admits_eachItem {siblings : List (Value × Meaning)}
    (unlisted : meaningOf siblings "prefixItems" = .unknown) (item : Keywords) :
    Keyword.items.admits draft siblings ((Fragment.object item).meaning draft) x =
      x.elements.all (item.admits draft) := by
  have each : ((Fragment.object item).meaning draft).admits = item.admits draft :=
    funext fun y => admits_object item y
  simp only [Keyword.admits, unlisted, schemas, List.length_nil, List.drop_zero, each]
  split
  · rfl
  · exact congrArg (List.all x.elements) each

/-- The fragment of an array admits the arrays whose items are admitted. -/
theorem admits_array (item : Keywords) :
    ((ofType "array").put "items" (.object item)).admits draft x =
      (x.hasType "array" && x.elements.all (item.admits draft)) := by
  refine (admits_put .items rfl rfl _).trans ?_
  rw [admits_ofType, admits_eachItem rfl]

theorem typed_array (item : Keywords) : ((ofType "array").put "items" (.object item)).Typed :=
  typed_put .items rfl (typed_ofType "array") _

/-- The fragment of an object without named properties admits the objects whose members are
admitted. -/
theorem admits_record (value : Keywords) :
    ((ofType "object").put "additionalProperties" (.object value)).admits draft x =
      (x.hasType "object" && x.members.all fun member => value.admits draft member.2) := by
  refine (admits_put .additionalProperties rfl rfl _).trans ?_
  have unnamed : meaningOf ((ofType "object").meanings draft) "properties" = .unknown := rfl
  simp only [Keyword.admits, admits_ofType, unnamed, named, List.any_nil, Bool.false_or,
    admits_object]

theorem typed_record (value : Keywords) :
    ((ofType "object").put "additionalProperties" (.object value)).Typed :=
  typed_put .additionalProperties rfl (typed_ofType "object") _

def ofNamed (properties : List (Value × Keywords)) : Keywords :=
  properties.map fun property => (property.1, .object property.2)

private theorem named_ofNamed (properties : List (Value × Keywords)) :
    ((Fragment.object (ofNamed properties)).meaning draft).named =
      properties.map fun property => (property.1, property.2.admits draft) := by
  simp only [ofNamed, Fragment.meaning, named, Fragment.meaningEntries_eq_map, List.map_map]
  refine List.map_congr_left fun property _ => ?_
  exact Prod.ext rfl (funext (admits_object property.2))

end Keywords

namespace Projection

open Keywords Keyword Meaning

variable {draft : String} {x : Value} (properties : List (Value × Keywords)) (required : List Value)

private theorem admits_properties :
    ((ofType "object").put "properties" (.object (ofNamed properties))).admits draft x =
      (x.hasType "object" && properties.all fun property =>
        (Entries.get? x.members property.1).all (property.2.admits draft)) := by
  refine (admits_put .properties rfl rfl _).trans ?_
  simp only [Keyword.admits, admits_ofType, named_ofNamed, List.all_map]
  rfl

/-- The fragment of an object admits the objects whose members are admitted and which have the
required ones. -/
theorem admits_objectOf : (objectOf (ofNamed properties) required).admits draft x =
    (x.hasType "object" && (properties.all (fun property =>
      (Entries.get? x.members property.1).all (property.2.admits draft)) &&
        required.all (Entries.has x.members))) := by
  unfold objectOf
  split
  · rename_i none
    rw [admits_properties, List.isEmpty_iff.mp none, List.all_nil, Bool.and_true]
  · refine (admits_put .required rfl rfl _).trans ?_
    rw [admits_properties]
    simp only [Keyword.admits, Fragment.meaning, values]
    cases x.hasType "object" <;> simp

theorem typed_objectOf (named : Keywords) : (objectOf named required).Typed := by
  have typed := typed_put .properties rfl (typed_ofType "object") (.object named)
  unfold objectOf
  split
  · exact typed
  · exact typed_put .required rfl typed _

private theorem named_objectOf :
    (meaningOf ((objectOf (ofNamed properties) required).meanings draft) "properties").named =
      properties.map fun property => (property.1, property.2.admits draft) := by
  rw [← named_ofNamed]
  unfold objectOf
  split <;> rfl

/-- What is said of additional properties concerns the members that are no properties. -/
theorem admits_openObject (rest : Fragment) :
    ((objectOf (ofNamed properties) required).put "additionalProperties" rest).admits draft x =
      ((objectOf (ofNamed properties) required).admits draft x && x.members.all fun member =>
        (properties.map (·.1)).any (· == member.1) || (rest.meaning draft).admits member.2) := by
  have unseen : (objectOf (ofNamed properties) required).looksAt
      "additionalProperties" = false := by
    unfold objectOf
    split <;> rfl
  have fresh : Entries.get? (objectOf (ofNamed properties) required) (.str "additionalProperties") =
      none := by
    unfold objectOf
    split <;> rfl
  refine (admits_put .additionalProperties unseen fresh rest).trans ?_
  simp only [Keyword.admits, named_objectOf, List.any_map]
  rfl

theorem typed_openObject (named : Keywords) (rest : Fragment) :
    ((objectOf named required).put "additionalProperties" rest).Typed :=
  typed_put .additionalProperties rfl (typed_objectOf required named) rest

end Projection

namespace Projection

open Keywords Keyword Meaning

variable {draft : String} {x : Value} (positions : List Keywords)

def admitsBeyond (draft : String) (rest : Option Keywords) (isOpen : Bool)
    (further : List Value) : Bool :=
  match rest with
  | some rest => further.all (rest.admits draft)
  | none => isOpen || further.isEmpty

/-- The fragment of positions without what may follow them. -/
private def listing (draft : String) (positions : List Keywords) : Keywords :=
  ((ofType "array").putValue "minItems" (.int positions.length)).put
    (if draft = "draft-2020-12" then "prefixItems" else "items") (.list (positions.map .object))

private theorem admitsEach_listed :
    admitsEach ((Fragment.list (positions.map .object)).meaning draft).schemas x =
      (positions.zip x.elements).all fun pair => pair.1.admits draft pair.2 := by
  rw [schemas_of_list, admitsEach, List.zip_map_left, List.all_map]
  rfl

private theorem admits_sized {siblings : List (Value × Meaning)} :
    Keyword.minItems.admits draft siblings (.plain (.int positions.length)) x =
      (!x.hasType "array" || decide (positions.length ≤ x.elements.length)) := by
  cases x with
  | list items =>
    simp only [Keyword.admits, Value.hasType, Value.arraySize?, Value.elements, bounds,
      beq_self_eq_true, Bool.not_true, Bool.false_or]
    exact decide_eq_decide.mpr Int.ofNat_le
  | _ => rfl

/-- Positions without anything said about the rest admit lists long enough whose items each admits.
-/
private theorem admits_listing : (listing draft positions).admits draft x =
    (x.hasType "array" && (decide (positions.length ≤ x.elements.length) &&
      (positions.zip x.elements).all fun pair => pair.1.admits draft pair.2)) := by
  have start : ((ofType "array").putValue "minItems" (.int positions.length)).admits draft x =
      (x.hasType "array" && decide (positions.length ≤ x.elements.length)) := by
    refine (admits_put .minItems rfl rfl _).trans ?_
    rw [admits_ofType, Fragment.meaning, admits_sized]
    cases x.hasType "array" <;> rfl
  unfold listing
  split
  · rename_i modern
    refine (admits_put .prefixItems rfl rfl _).trans ?_
    have lists : listsPrefix draft = true := beq_iff_eq.mpr modern
    simp only [Keyword.admits, lists, Bool.not_true, Bool.false_or, start, admitsEach_listed,
      Bool.and_assoc]
  · rename_i earlier
    refine (admits_put .items rfl rfl _).trans ?_
    have lists : listsPrefix draft = false := beq_false_of_ne earlier
    simp only [Keyword.admits, lists, Bool.false_eq_true, if_false, start, Bool.and_assoc,
      Fragment.meaning]
    rw [← admitsEach_listed]
    rfl

/-- A rest is applied beyond the listed positions, whichever keyword lists them. -/
private theorem admits_listing_rest (rest : Keywords) :
    ((listing draft positions).put (if draft = "draft-2020-12" then "items" else "additionalItems")
      (.object rest)).admits draft x = ((listing draft positions).admits draft x &&
        (x.elements.drop positions.length).all (rest.admits draft)) := by
  have counted : (Fragment.meanings draft (positions.map .object)).length = positions.length := by
    rw [Fragment.meanings_eq_map, List.length_map, List.length_map]
  have each : ((Fragment.object rest).meaning draft).admits = rest.admits draft :=
    funext fun y => admits_object rest y
  by_cases modern : draft = "draft-2020-12"
  · have lists : listsPrefix draft = true := beq_iff_eq.mpr modern
    have unseen : (listing draft positions).looksAt "items" = false := by
      rw [listing, if_pos modern]
      rfl
    have fresh : Entries.get? (listing draft positions) (.str "items") = none := by
      rw [listing, if_pos modern]
      rfl
    have listed : meaningOf ((listing draft positions).meanings draft) "prefixItems" =
        .several (Fragment.meanings draft (positions.map .object)) := by
      rw [listing, if_pos modern]
      rfl
    rw [if_pos modern]
    refine (admits_put .items unseen fresh _).trans ?_
    simp only [Keyword.admits, lists, if_true, listed, schemas, counted, each]
  · have lists : listsPrefix draft = false := beq_false_of_ne modern
    have unseen : (listing draft positions).looksAt "additionalItems" = false := by
      rw [listing, if_neg modern]
      rfl
    have fresh : Entries.get? (listing draft positions) (.str "additionalItems") = none := by
      rw [listing, if_neg modern]
      rfl
    have listed : meaningOf ((listing draft positions).meanings draft) "items" =
        .several (Fragment.meanings draft (positions.map .object)) := by
      rw [listing, if_neg modern]
      rfl
    rw [if_neg modern]
    refine (admits_put .additionalItems unseen fresh _).trans ?_
    simp only [Keyword.admits, lists, Bool.false_or, listed, counted, each]

/-- With a greatest length the listed positions are all there may be. -/
private theorem admits_listing_closed :
    ((listing draft positions).putValue "maxItems" (.int positions.length)).admits draft x =
      ((listing draft positions).admits draft x && (x.elements.drop positions.length).isEmpty) := by
  have unseen : (listing draft positions).looksAt "maxItems" = false := by
    unfold listing
    split <;> rfl
  have fresh : Entries.get? (listing draft positions) (.str "maxItems") = none := by
    unfold listing
    split <;> rfl
  have fitted : ∀ siblings : List (Value × Meaning),
      Keyword.maxItems.admits draft siblings (.plain (.int positions.length)) x =
        (x.elements.drop positions.length).isEmpty := by
    intro siblings
    rw [Bool.eq_iff_iff]
    cases x <;> simp [Keyword.admits, Value.arraySize?, Value.elements, bounds]
  refine (admits_put .maxItems unseen fresh _).trans ?_
  rw [Fragment.meaning, fitted]

private theorem tupleOf_eq_listing (rest : Option Keywords) (isOpen : Bool) :
    tupleOf draft positions rest isOpen = match rest with
      | some rest => (listing draft positions).put
          (if draft = "draft-2020-12" then "items" else "additionalItems") (.object rest)
      | none => if isOpen then listing draft positions
          else (listing draft positions).putValue "maxItems" (.int positions.length) := by
  by_cases modern : draft = "draft-2020-12"
  all_goals cases rest <;> cases isOpen <;> simp [tupleOf, listing, modern]

/-- The fragment of a tuple admits the arrays that are long enough, whose first items are admitted
position by position and all further ones by the rest. -/
theorem admits_tupleOf (rest : Option Keywords) (isOpen : Bool) :
    (tupleOf draft positions rest isOpen).admits draft x =
      (x.hasType "array" && (decide (positions.length ≤ x.elements.length) &&
        ((positions.zip x.elements).all fun pair => pair.1.admits draft pair.2) &&
          admitsBeyond draft rest isOpen (x.elements.drop positions.length))) := by
  rw [tupleOf_eq_listing, ← Bool.and_assoc, ← admits_listing]
  cases rest with
  | some rest => exact admits_listing_rest positions rest
  | none =>
    cases isOpen with
    | true => simp only [if_true, admitsBeyond, Bool.true_or, Bool.and_true]
    | false => exact admits_listing_closed positions

theorem typed_tupleOf (rest : Option Keywords) (isOpen : Bool) :
    (tupleOf draft positions rest isOpen).Typed := by
  have start := typed_put .minItems rfl (typed_ofType "array") (.value (.int positions.length))
  have listed : (listing draft positions).Typed := by
    unfold listing
    split
    · exact typed_put .prefixItems rfl start _
    · exact typed_put .items rfl start _
  rw [tupleOf_eq_listing]
  cases rest with
  | some rest =>
    dsimp only
    split
    · exact typed_put .items rfl listed _
    · exact typed_put .additionalItems rfl listed _
  | none =>
    cases isOpen with
    | true => exact listed
    | false => exact typed_put .maxItems rfl listed _

end Projection

end Conform
