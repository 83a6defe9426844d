import Conform.JsonSchema.Projection

/-!
What document schemas mean. A fragment means a set of values; a keyword admits a value by its own
meaning and by those of a few keywords beside it. Draft 2020-12 lists positions under `prefixItems`,
the earlier drafts under `items`. A keyword that is not listed here says nothing about values.
-/
namespace Conform

namespace Value

mutual

/-- Values that documents are made of, without fractions. -/
def isJson : Value → Bool
  | .null | .bool _ | .int _ | .str _ => true
  | .list items => allJson items
  | .dict entries => entriesJson entries
  | _ => false

def allJson : List Value → Bool
  | [] => true
  | item :: rest => isJson item && allJson rest

/-- Entries of an object: names are text and different from each other. -/
def entriesJson : List (Value × Value) → Bool
  | [] => true
  | (key, item) :: rest => key.isStr && !Entries.has rest key && isJson item && entriesJson rest

end

mutual

/-- Equality of document values: a Boolean is no number, and the members of an object have no
order. -/
def sameJson : Value → Value → Bool
  | .null, y => y.isNull
  | .bool b, y => match y with
    | .bool c => b == c
    | _ => false
  | .int n, y => match y with
    | .int m => n == m
    | _ => false
  | .str s, y => match y with
    | .str t => s == t
    | _ => false
  | .list xs, y => match y with
    | .list ys => sameEach xs ys
    | _ => false
  | .dict xs, y => match y with
    | .dict ys => xs.length == ys.length && sameMembers xs ys
    | _ => false
  | _, _ => false
termination_by structural x => x

def sameEach : List Value → List Value → Bool
  | [], ys => ys.isEmpty
  | x :: xs, ys => match ys with
    | y :: ys => sameJson x y && sameEach xs ys
    | [] => false
termination_by structural x => x

/-- Whether every member of the first object is one of the second. -/
def sameMembers : List (Value × Value) → List (Value × Value) → Bool
  | [], _ => true
  | (key, x) :: rest, ys =>
    (ys.any fun member => member.1 == key && sameJson x member.2) && sameMembers rest ys
termination_by structural x => x

end

def hasType (x : Value) (name : String) : Bool :=
  match x with
  | .null => name == "null"
  | .bool _ => name == "boolean"
  | .int _ => name == "integer" || name == "number"
  | .str _ => name == "string"
  | .list _ => name == "array"
  | .dict _ => name == "object"
  | _ => false

theorem isJson_of_mem {items : List Value} (json : allJson items) : ∀ item ∈ items,
    item.isJson := by
  induction items with
  | nil => exact nofun
  | cons first rest ih =>
    obtain ⟨here, later⟩ := Bool.and_eq_true_iff.mp json
    intro item member
    rcases List.mem_cons.mp member with rfl | member
    · exact here
    · exact ih later item member

theorem isJson_of_mem_entries {entries : List (Value × Value)} (json : entriesJson entries) :
    ∀ entry ∈ entries, entry.1.isStr ∧ entry.2.isJson := by
  induction entries with
  | nil => exact nofun
  | cons first rest ih =>
    obtain ⟨named, later⟩ := Bool.and_eq_true_iff.mp json
    obtain ⟨named, here⟩ := Bool.and_eq_true_iff.mp named
    obtain ⟨named, -⟩ := Bool.and_eq_true_iff.mp named
    intro entry member
    rcases List.mem_cons.mp member with rfl | member
    · exact ⟨named, here⟩
    · exact ih later entry member

theorem hashable_of_isStr {x : Value} (text : x.isStr) : x.unhashable? = none := by
  cases x <;> first | rfl | cases text

theorem present_of_isJson {x : Value} (json : x.isJson) : x.isMissing = false := by
  cases x <;> first | rfl | cases json

/-- A document value is an array of document values or has no items. -/
theorem array_or_not {x : Value} (json : x.isJson) :
    (∃ items, x = .list items ∧ ∀ item ∈ items, item.isJson) ∨
      x.items? = none ∧ x.hasType "array" = false := by
  cases x with
  | list items => exact .inl ⟨items, rfl, isJson_of_mem json⟩
  | tuple items => cases json
  | _ => exact .inr ⟨rfl, rfl⟩

/-- A document value is an object of document values or has no entries. -/
theorem object_or_not {x : Value} (json : x.isJson) :
    (∃ entries, x = .dict entries ∧ ∀ entry ∈ entries, entry.1.isStr ∧ entry.2.isJson) ∨
      x.entries? = none ∧ x.hasType "object" = false := by
  cases x with
  | dict entries => exact .inl ⟨entries, rfl, isJson_of_mem_entries json⟩
  | mapping entries => cases json
  | _ => exact .inr ⟨rfl, rfl⟩

/-- The members of an object; other values have none. -/
def members : Value → List (Value × Value)
  | .dict entries => entries
  | _ => []

/-- The elements of an array; other values have none. -/
def elements : Value → List Value
  | .list items => items
  | _ => []

end Value

/-- The keywords that say something about values. -/
inductive Keyword where
  | type | const | enum | not | anyOf | allOf
  | properties | required | additionalProperties
  | items | prefixItems | additionalItems | minItems | maxItems
  | minLength | maxLength | minimum | maximum | exclusiveMinimum | exclusiveMaximum
  deriving DecidableEq

def Keyword.names : List (String × Keyword) := [
  ("type", .type), ("const", .const), ("enum", .enum), ("not", .not), ("anyOf", .anyOf),
  ("allOf", .allOf), ("properties", .properties), ("required", .required),
  ("additionalProperties", .additionalProperties), ("items", .items), ("prefixItems", .prefixItems),
  ("additionalItems", .additionalItems), ("minItems", .minItems), ("maxItems", .maxItems),
  ("minLength", .minLength), ("maxLength", .maxLength), ("minimum", .minimum),
    ("maximum", .maximum),
  ("exclusiveMinimum", .exclusiveMinimum), ("exclusiveMaximum", .exclusiveMaximum)]

def Keyword.ofName? (name : Value) : Option Keyword :=
  (Keyword.names.find? fun entry => name == .str entry.1).map (·.2)

/-- What a fragment means: a plain value, a list of schemas, or an object, which may be read as
named schemas or as one schema. -/
inductive Meaning where
  | plain (value : Value)
  | several (schemas : List (Value → Bool))
  | object (named : List (Value × (Value → Bool))) (schema : Value → Bool)
  | unknown

namespace Meaning

/-- The meaning read as a schema; a schema may be a mere yes or no. -/
def admits : Meaning → Value → Bool
  | .object _ schema, x => schema x
  | .plain (.bool b), _ => b
  | _, _ => true

def schemas : Meaning → List (Value → Bool)
  | .several schemas => schemas
  | _ => []

def named : Meaning → List (Value × (Value → Bool))
  | .object named _ => named
  | _ => []

def values : Meaning → List Value
  | .plain (.list values) => values
  | _ => []

/-- The meaning read as one type name or several. -/
def types : Meaning → List Value
  | .plain (.list names) => names
  | .plain name => [name]
  | _ => []

/-- Whether a size relates to a bound; a value without such a size passes. -/
def bounds (meaning : Meaning) (relates : Int → Int → Bool) (size : Option Int) : Bool :=
  match size, meaning with
  | some n, .plain (.int bound) => relates n bound
  | _, _ => true

end Meaning

namespace Value

def arraySize? : Value → Option Int
  | .list items => some items.length
  | _ => none

def textSize? : Value → Option Int
  | .str s => some s.length
  | _ => none

def number? : Value → Option Int
  | .int n => some n
  | _ => none

end Value

namespace Keyword

def meaningOf (siblings : List (Value × Meaning)) (name : String) : Meaning :=
  (Entries.get? siblings (.str name)).getD .unknown

/-- Whether positions are listed under `prefixItems`. -/
def listsPrefix (draft : String) : Bool := draft == "draft-2020-12"

/-- Position by position, as far as there are both schemas and elements. -/
def admitsEach (schemas : List (Value → Bool)) (x : Value) : Bool :=
  (schemas.zip x.elements).all fun pair => pair.1 pair.2

/-- Whether a keyword, with what it means and what those beside it mean, admits a value. -/
def admits (draft : String) (siblings : List (Value × Meaning)) (meaning : Meaning) (x : Value) :
    Keyword → Bool
  | .type => meaning.types.any fun name => match name with
    | .str name => x.hasType name
    | _ => false
  | .const => match meaning with
    | .plain value => x.sameJson value
    | _ => true
  | .enum => meaning.values.any x.sameJson
  | .not => !meaning.admits x
  | .anyOf => meaning.schemas.any (· x)
  | .allOf => meaning.schemas.all (· x)
  | .properties => meaning.named.all fun property =>
    (Entries.get? x.members property.1).all property.2
  | .required => !x.hasType "object" || meaning.values.all (Entries.has x.members)
  | .additionalProperties => x.members.all fun member =>
    (meaningOf siblings "properties").named.any (·.1 == member.1) || meaning.admits member.2
  | .items =>
    if listsPrefix draft then
      (x.elements.drop (meaningOf siblings "prefixItems").schemas.length).all meaning.admits
    else match meaning with
      | .several schemas => admitsEach schemas x
      | meaning => x.elements.all meaning.admits
  | .prefixItems => !listsPrefix draft || admitsEach meaning.schemas x
  | .additionalItems => listsPrefix draft || match meaningOf siblings "items" with
    | .several schemas => (x.elements.drop schemas.length).all meaning.admits
    | _ => true
  | .minItems => meaning.bounds (fun n bound => bound ≤ n) x.arraySize?
  | .maxItems => meaning.bounds (fun n bound => n ≤ bound) x.arraySize?
  | .minLength => meaning.bounds (fun n bound => bound ≤ n) x.textSize?
  | .maxLength => meaning.bounds (fun n bound => n ≤ bound) x.textSize?
  | .minimum => meaning.bounds (fun n bound => bound ≤ n) x.number?
  | .maximum => meaning.bounds (fun n bound => n ≤ bound) x.number?
  | .exclusiveMinimum => meaning.bounds (fun n bound => bound < n) x.number?
  | .exclusiveMaximum => meaning.bounds (fun n bound => n < bound) x.number?

end Keyword

/-- Whether the keywords of a schema, by their meanings, admit a value. -/
def Meaning.admitAll (draft : String) (meanings : List (Value × Meaning)) (x : Value) : Bool :=
  meanings.all fun entry =>
    (Keyword.ofName? entry.1).all (Keyword.admits draft meanings entry.2 x)

namespace Fragment

mutual

def meaning (draft : String) : Fragment → Meaning
  | .value given => .plain given
  | .schema _ => .unknown
  | .list items => .several (meanings draft items)
  | .object entries =>
    let meanings := meaningEntries draft entries
    .object (meanings.map fun entry => (entry.1, entry.2.admits)) (Meaning.admitAll draft meanings)

def meanings (draft : String) : List Fragment → List (Value → Bool)
  | [] => []
  | item :: rest => (meaning draft item).admits :: meanings draft rest

def meaningEntries (draft : String) : List (Value × Fragment) → List (Value × Meaning)
  | [] => []
  | (name, item) :: rest => (name, meaning draft item) :: meaningEntries draft rest

end

theorem meaningEntries_eq_map (draft : String) : ∀ entries : List (Value × Fragment),
    meaningEntries draft entries = entries.map fun entry => (entry.1, entry.2.meaning draft)
  | [] => by rw [meaningEntries, List.map_nil]
  | (name, item) :: rest => by
    rw [meaningEntries, List.map_cons, meaningEntries_eq_map draft rest]

theorem meanings_eq_map (draft : String) : ∀ items : List Fragment,
    meanings draft items = items.map fun item => (item.meaning draft).admits
  | [] => by rw [meanings, List.map_nil]
  | item :: rest => by rw [meanings, List.map_cons, meanings_eq_map draft rest]

end Fragment

namespace Keywords

def meanings (draft : String) (keywords : Keywords) : List (Value × Meaning) :=
  keywords.map fun entry => (entry.1, entry.2.meaning draft)

/-- Whether a document schema admits a value. -/
def admits (draft : String) (keywords : Keywords) (x : Value) : Bool :=
  Meaning.admitAll draft (keywords.meanings draft) x

end Keywords

end Conform
