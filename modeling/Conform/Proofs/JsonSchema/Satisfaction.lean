import Conform.Proofs.JsonSchema.Admission

/-!
Satisfaction of document schemas by values of any kind, with every keyword that is projected. What a
document schema leaves to its readers is a parameter: the equality of values, the comparison of
numbers, and the matching of text. A keyword that speaks of objects, arrays, text or numbers says
nothing about other values.
-/
namespace Conform

/-- What document schemas leave to their readers. Null equals nothing but null. -/
structure Reading where
  same : Value → Value → Bool
  same_null : ∀ y, same .null y = y.isNull
  isIntegral : Binary64 → Bool
  relates : Comparison → Value → Value → Bool
  isMultiple : Value → Value → Bool
  occurs : Value → String → Bool
  describes : Value → String → Bool

/-- There are readings: this one compares values, takes no float for an integer, and leaves
multiples, patterns and formats unjudged. -/
instance : Inhabited Reading where
  default := {
    same := Value.sameJson
    same_null := fun _ => rfl
    isIntegral := fun _ => false
    relates := fun comparison x bound => (x.compare? comparison bound).getD false
    isMultiple := fun _ _ => true
    occurs := fun _ _ => true
    describes := fun _ _ => true }

/-- The keywords that speak of objects. -/
inductive ObjectKeyword where
  | properties | required | additionalProperties | propertyNames | minProperties | maxProperties

/-- The keywords that speak of arrays. -/
inductive ArrayKeyword where
  | items | prefixItems | additionalItems | minItems | maxItems | uniqueItems

/-- The keywords that speak of text. -/
inductive TextKeyword where
  | minLength | maxLength | pattern | format

/-- The keywords that speak of numbers. -/
inductive NumberKeyword where
  | bound (comparison : Comparison)
  | multipleOf

/-- The keywords that can be asserted of values. -/
inductive Assertion where
  | type | const | enum | not | anyOf | allOf
  | object (keyword : ObjectKeyword)
  | array (keyword : ArrayKeyword)
  | text (keyword : TextKeyword)
  | number (keyword : NumberKeyword)

namespace Assertion

def names : List (String × Assertion) := [
  ("type", .type), ("const", .const), ("enum", .enum), ("not", .not), ("anyOf", .anyOf),
    ("allOf", .allOf),
  ("properties", .object .properties), ("required", .object .required),
  ("additionalProperties", .object .additionalProperties),
    ("propertyNames", .object .propertyNames),
  ("minProperties", .object .minProperties), ("maxProperties", .object .maxProperties),
  ("items", .array .items), ("prefixItems", .array .prefixItems),
    ("additionalItems", .array .additionalItems),
  ("minItems", .array .minItems), ("maxItems", .array .maxItems),
    ("uniqueItems", .array .uniqueItems),
  ("minLength", .text .minLength), ("maxLength", .text .maxLength), ("pattern", .text .pattern),
  ("format", .text .format),
  ("minimum", .number (.bound .atLeast)), ("maximum", .number (.bound .atMost)),
  ("exclusiveMinimum", .number (.bound .greater)), ("exclusiveMaximum", .number (.bound .less)),
  ("multipleOf", .number .multipleOf)]

def ofName? (name : Value) : Option Assertion :=
  (names.find? fun entry => name == .str entry.1).map (·.2)

/-- Whether a keyword speaks of values of some types only, of which null is none. -/
def isConditional : Assertion → Bool
  | .object _ | .array _ | .text _ | .number _ => true
  | _ => false

end Assertion

namespace Reading

variable (reading : Reading)

def isOf (x : Value) (name : Value) : Bool :=
  match x with
  | .null => name == .str "null"
  | .bool _ => name == .str "boolean"
  | .int _ => name == .str "integer" || name == .str "number"
  | .float y => name == .str "number" || name == .str "integer" && reading.isIntegral y
  | .str _ => name == .str "string"
  | .list _ => name == .str "array"
  | .dict _ => name == .str "object"
  | _ => false

def bounds (comparison : Comparison) (meaning : Meaning) (x : Value) : Bool :=
  match meaning with
  | .plain bound => reading.relates comparison x bound
  | _ => true

def allApart : List Value → Bool
  | [] => true
  | x :: rest => !rest.any (reading.same x) && allApart rest

def ofObject (siblings : List (Value × Meaning)) (meaning : Meaning)
    (members : List (Value × Value)) :
    ObjectKeyword → Bool
  | .properties => meaning.named.all fun property =>
    (Entries.get? members property.1).all property.2
  | .required => meaning.values.all (Entries.has members)
  | .additionalProperties => members.all fun member =>
    (Keyword.meaningOf siblings "properties").named.any (·.1 == member.1) || meaning.admits member.2
  | .propertyNames => members.all fun member => meaning.admits member.1
  | .minProperties => reading.bounds .atLeast meaning (.int members.length)
  | .maxProperties => reading.bounds .atMost meaning (.int members.length)

def ofArray (draft : String) (siblings : List (Value × Meaning)) (meaning : Meaning)
    (elements : List Value) :
    ArrayKeyword → Bool
  | .items =>
    if Keyword.listsPrefix draft then
      (elements.drop (Keyword.meaningOf siblings "prefixItems").schemas.length).all meaning.admits
    else match meaning with
      | .several schemas => (schemas.zip elements).all fun pair => pair.1 pair.2
      | meaning => elements.all meaning.admits
  | .prefixItems =>
    !Keyword.listsPrefix draft || (meaning.schemas.zip elements).all fun pair => pair.1 pair.2
  | .additionalItems => Keyword.listsPrefix draft || match Keyword.meaningOf siblings "items" with
    | .several schemas => (elements.drop schemas.length).all meaning.admits
    | _ => true
  | .minItems => reading.bounds .atLeast meaning (.int elements.length)
  | .maxItems => reading.bounds .atMost meaning (.int elements.length)
  | .uniqueItems => match meaning with
    | .plain (.bool true) => reading.allApart elements
    | _ => true

def ofText (meaning : Meaning) (s : String) : TextKeyword → Bool
  | .minLength => reading.bounds .atLeast meaning (.int s.length)
  | .maxLength => reading.bounds .atMost meaning (.int s.length)
  | .pattern => match meaning with
    | .plain pattern => reading.occurs pattern s
    | _ => true
  | .format => match meaning with
    | .plain format => reading.describes format s
    | _ => true

def ofNumber (meaning : Meaning) (x : Value) : NumberKeyword → Bool
  | .bound comparison => reading.bounds comparison meaning x
  | .multipleOf => match meaning with
    | .plain divisor => reading.isMultiple x divisor
    | _ => true

/-- Whether a keyword, with what it means and what those beside it mean, holds of a value. -/
def holds (draft : String) (siblings : List (Value × Meaning)) (meaning : Meaning) (x : Value) :
    Assertion → Bool
  | .type => meaning.types.any (reading.isOf x)
  | .const => match meaning with
    | .plain value => reading.same x value
    | _ => true
  | .enum => meaning.values.any (reading.same x)
  | .not => !meaning.admits x
  | .anyOf => meaning.schemas.any (· x)
  | .allOf => meaning.schemas.all (· x)
  | .object keyword => match x with
    | .dict members => reading.ofObject siblings meaning members keyword
    | _ => true
  | .array keyword => match x with
    | .list elements => reading.ofArray draft siblings meaning elements keyword
    | _ => true
  | .text keyword => match x with
    | .str s => reading.ofText meaning s keyword
    | _ => true
  | .number keyword => match x with
    | .int n => reading.ofNumber meaning (.int n) keyword
    | .float y => reading.ofNumber meaning (.float y) keyword
    | _ => true

/-- Whether a named entry among others holds of a value; a name that is no keyword says nothing. -/
def holdsEntry (draft : String) (siblings : List (Value × Meaning)) (x : Value)
    (entry : Value × Meaning) :
    Bool :=
  (Assertion.ofName? entry.1).all (reading.holds draft siblings entry.2 x)

def holdsAll (draft : String) (meanings : List (Value × Meaning)) (x : Value) : Bool :=
  meanings.all (reading.holdsEntry draft meanings x)

mutual

def meaning (draft : String) : Fragment → Meaning
  | .value given => .plain given
  | .schema _ => .unknown
  | .list items => .several (meanings draft items)
  | .object entries =>
    let meanings := meaningEntries draft entries
    .object (meanings.map fun entry => (entry.1, entry.2.admits)) (reading.holdsAll draft meanings)

def meanings (draft : String) : List Fragment → List (Value → Bool)
  | [] => []
  | item :: rest => (meaning draft item).admits :: meanings draft rest

def meaningEntries (draft : String) : List (Value × Fragment) → List (Value × Meaning)
  | [] => []
  | (name, item) :: rest => (name, meaning draft item) :: meaningEntries draft rest

end

/-- Whether a value satisfies a document schema. -/
def satisfies (draft : String) (x : Value) (keywords : Keywords) : Bool :=
  reading.holdsAll draft (reading.meaningEntries draft keywords) x

variable {reading} {draft : String} {keywords : Keywords}
  {siblings others : List (Value × Meaning)} {x : Value}

theorem meaningEntries_eq_map : ∀ entries : List (Value × Fragment),
    reading.meaningEntries draft entries = entries.map fun entry =>
      (entry.1, reading.meaning draft entry.2)
  | [] => by rw [meaningEntries, List.map_nil]
  | (name, item) :: rest => by rw [meaningEntries, List.map_cons, meaningEntries_eq_map rest]

theorem meanings_eq_map : ∀ items : List Fragment,
    reading.meanings draft items = items.map fun item => (reading.meaning draft item).admits
  | [] => by rw [meanings, List.map_nil]
  | item :: rest => by rw [meanings, List.map_cons, meanings_eq_map rest]

/-- A schema is satisfied by the values of which each of its entries holds. -/
theorem satisfies_iff : reading.satisfies draft x keywords = true ↔ ∀ entry ∈ keywords,
    reading.holdsEntry draft (reading.meaningEntries draft keywords) x
      (entry.1, reading.meaning draft entry.2) = true := by
  rw [satisfies, holdsAll, List.all_eq_true, meaningEntries_eq_map]
  simp only [List.forall_mem_map]

/-- Every keyword looks at three siblings at most. -/
theorem holdsEntry_congr (same : ∀ name ∈ ["properties", "prefixItems", "items"],
      Keyword.meaningOf siblings name = Keyword.meaningOf others name) (entry : Value × Meaning) :
    reading.holdsEntry draft siblings x entry = reading.holdsEntry draft others x entry := by
  have properties := same "properties" (by simp)
  have prefixItems := same "prefixItems" (by simp)
  have items := same "items" (by simp)
  unfold holdsEntry
  cases Assertion.ofName? entry.1 with
  | none => rfl
  | some assertion =>
    simp only [Option.all_some]
    cases assertion with
    | object keyword => cases keyword <;> simp only [holds, ofObject, properties]
    | array keyword => cases keyword <;> simp only [holds, ofArray, prefixItems, items]
    | _ => rfl

theorem meaningOf_put {name other : String} (different : name ≠ other) (fragment : Fragment) :
    Keyword.meaningOf (reading.meaningEntries draft (keywords.put name fragment)) other =
      Keyword.meaningOf (reading.meaningEntries draft keywords) other := by
  rw [Keyword.meaningOf, Keyword.meaningOf, meaningEntries_eq_map,
    meaningEntries_eq_map, Keywords.put, Entries.map_insert, Entries.get?_insert_of_ne different]

/-- A keyword that no other looks at leaves what the others assert as it is. -/
theorem holdsEntry_put {name : String} (unseen : name ∉ ["properties", "prefixItems", "items"])
    (fragment : Fragment) (entry : Value × Meaning) :
    reading.holdsEntry draft (reading.meaningEntries draft (keywords.put name fragment)) x entry =
      reading.holdsEntry draft (reading.meaningEntries draft keywords) x entry :=
  holdsEntry_congr
    (fun _ member => meaningOf_put (ne_of_mem_of_not_mem member unseen).symm fragment) entry

/-- An annotation says nothing. -/
theorem satisfies_put {name : String} (unasserted : Assertion.ofName? (.str name) = none)
    (fragment : Fragment) :
    reading.satisfies draft x (keywords.put name fragment) =
      reading.satisfies draft x keywords := by
  have unseen : name ∉ ["properties", "prefixItems", "items"] := by
    intro member
    simp only [List.mem_cons, List.not_mem_nil, or_false] at member
    rcases member with rfl | rfl | rfl <;> cases unasserted
  have silent : ∀ siblings meaning,
      reading.holdsEntry draft siblings x (.str name, meaning) = true := by
    intro siblings meaning
    rw [holdsEntry, unasserted, Option.all_none]
  rw [Bool.eq_iff_iff, satisfies_iff, satisfies_iff]
  simp only [holdsEntry_put unseen]
  constructor
  · intro all entry member
    rcases Entries.mem_insert_of_mem member (.str name) fragment with same | kept
    · rw [Value.eq_str_of_beq same]
      exact silent _ _
    · exact all entry kept
  · intro all entry member
    rcases Entries.mem_insert member with old | rfl | ⟨first, old, same, rfl⟩
    · exact all entry old
    · exact silent _ _
    · rw [Value.eq_str_of_beq same]
      exact silent _ _

end Reading

end Conform
