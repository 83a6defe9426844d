import Conform.Proofs.JsonSchema.Limits

/-!
The schemas whose document schemas leave nothing out: type checks, exact values, bounded text,
numbers and arrays, null beside a schema, alternatives, conjunctions, arrays, tuples, and objects
whose fields may be absent, null or given a default.
-/
namespace Conform

def Value.isScalar : Value → Bool
  | .null | .bool _ | .int _ | .str _ => true
  | _ => false

/-- The type names of the type checks that document schemas have a type for. -/
def Leaf.typeName? : Leaf → Option String
  | .string => some "string"
  | .number => some "number"
  | .integer => some "integer"
  | .boolean => some "boolean"
  | .null => some "null"
  | .any | .unknown | .never => none

/-- What a type check's values can be measured in. -/
def Leaf.measure? : Leaf → Option Measure
  | .string => some .text
  | .number | .integer => some .number
  | _ => none

/-- Whether a field of an object has to be there, and what stands for it when it is not. -/
inductive Presence where
  | required | optional | exactOptional | nullish
  | withDefault (value : Value)

/-- A named field of an object. -/
structure Field where
  name : String
  presence : Presence
  schema : Validator

namespace Field

def validator (field : Field) : Validator :=
  match field.presence with
  | .required => field.schema
  | .optional => .optional field.schema
  | .exactOptional => .exactOptional field.schema
  | .nullish => .nullish field.schema
  | .withDefault value => .withDefault field.schema value

def isRequired (field : Field) : Bool :=
  match field.presence with
  | .required => true
  | _ => false

def declared (fields : List Field) : List (Value × Validator) :=
  fields.map fun field => (.str field.name, field.validator)

end Field

namespace Validator

/-- The schemas whose document schemas leave nothing out. -/
inductive Projectable : Validator → Prop
  | typed {l : Leaf} (named : l.typeName?.isSome) : Projectable (leaf l)
  | never : Projectable (leaf .never)
  | literal {value : Value} (scalar : value.isScalar) : Projectable (literal value)
  | oneOf {values : List Value} {v : Validator} (scalar : ∀ value ∈ values, value.isScalar)
      (made : oneOf values = .ok v) : Projectable v
  | limited {l : Leaf} {measure : Measure} {limits : Limits} {v : Validator}
      (sized : l.measure? = some measure) (fits : ∀ limit ∈ limits, limit.1.measure = measure)
      (once : (limits.map (·.1)).Nodup)
        (made : pipe (leaf l :: limits.tests) = .ok v) : Projectable v
  | limitedArray {item : Validator} {limits : Limits} {v : Validator} (part : Projectable item)
      (fits : ∀ limit ∈ limits, limit.1.measure = .array) (once : (limits.map (·.1)).Nodup)
      (made : pipe (array item :: limits.tests) = .ok v) : Projectable v
  | nullable {inner : Validator} (part : Projectable inner) : Projectable (nullable inner)
  | union {options : List Validator} {v : Validator}
      (parts : ∀ option ∈ options, Projectable option)
      (made : union options = .ok v) : Projectable v
  | intersect {members : List Validator} {v : Validator}
      (parts : ∀ member ∈ members, Projectable member)
      (made : intersect members = .ok v) : Projectable v
  | array {item : Validator} (part : Projectable item) : Projectable (array item)
  | tuple {items : List Validator} {v : Validator} (parts : ∀ item ∈ items, Projectable item)
      (made : tuple items = .ok v) : Projectable v
  | looseTuple {items : List Validator} {v : Validator} (parts : ∀ item ∈ items, Projectable item)
      (made : looseTuple items = .ok v) : Projectable v
  | tupleWithRest {items : List Validator} {rest v : Validator}
      (parts : ∀ item ∈ items, Projectable item) (further : Projectable rest)
      (made : tupleWithRest items rest = .ok v) : Projectable v
  | record {value : Validator} (part : Projectable value) :
      Projectable (record (leaf .string) value)
  | object {fields : List Field} (parts : ∀ field ∈ fields, Projectable field.schema) :
      Projectable (object (Field.declared fields))
  | looseObject {fields : List Field} (parts : ∀ field ∈ fields, Projectable field.schema) :
      Projectable (looseObject (Field.declared fields))
  | objectWithRest {fields : List Field} {rest : Validator}
      (parts : ∀ field ∈ fields, Projectable field.schema) (further : Projectable rest) :
      Projectable (objectWithRest (Field.declared fields) rest)

end Validator

end Conform
