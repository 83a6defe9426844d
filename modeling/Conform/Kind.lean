/-!
The kinds of schemas: one for each way a schema describes itself.
-/
namespace Conform

/-- How a schema describes itself. -/
inductive Kind where
  | string | number | integer | boolean | null | any | unknown | never | instanceOf | literal | enum
  | check | keyof
  | object | looseObject | objectWithRest | partialObject | required | array | tuple | record | map
  | set | lazy
  | pipe | union | discriminatedUnion | variant | intersect | optional | exactOptional | nullable
  | nullish | default | fallback | nonNullable | nonNullish | nonOptional | refine | transform
  | catch | codec
  deriving DecidableEq

namespace Kind

def names : List (Kind × String) := [
  (.string, "string"), (.number, "number"), (.integer, "integer"), (.boolean, "boolean"),
  (.null, "null"), (.any, "any"), (.unknown, "unknown"), (.never, "never"),
  (.instanceOf, "instance"), (.literal, "literal"), (.enum, "enum"), (.check, "check"),
  (.keyof, "keyof"), (.object, "object"), (.looseObject, "looseObject"),
  (.objectWithRest, "objectWithRest"), (.partialObject, "partial"), (.required, "required"),
  (.array, "array"), (.tuple, "tuple"), (.record, "record"), (.map, "map"), (.set, "set"),
  (.lazy, "lazy"), (.pipe, "pipe"), (.union, "union"),
  (.discriminatedUnion, "discriminatedUnion"), (.variant, "variant"), (.intersect, "intersect"),
  (.optional, "optional"), (.exactOptional, "exactOptional"), (.nullable, "nullable"),
  (.nullish, "nullish"), (.default, "default"), (.fallback, "fallback"),
  (.nonNullable, "nonNullable"), (.nonNullish, "nonNullish"), (.nonOptional, "nonOptional"),
  (.refine, "refine"), (.transform, "transform"), (.catch, "catch"), (.codec, "codec")]

def name (kind : Kind) : String := ((names.find? fun entry => entry.1 == kind).map (·.2)).getD ""

def ofName? (name : String) : Option Kind :=
  (names.find? fun entry => entry.2 == name).map (·.1)

/-- Whether schemas of this kind accept an absent value and so are not listed as required. -/
def acceptsAbsence : Kind → Bool
  | .optional | .exactOptional | .nullish | .default => true
  | _ => false

/-- Whether schemas of this kind wrap exactly one other schema and can be unwrapped. -/
def isWrapper : Kind → Bool
  | .optional | .exactOptional | .nullable | .nullish | .nonNullable | .nonNullish
  | .nonOptional => true
  | _ => false

def hasFields : Kind → Bool
  | .object | .looseObject | .objectWithRest | .partialObject | .required => true
  | _ => false

/-- Whether schemas of this kind describe an object directly, not through another object schema. -/
def isPlainObject : Kind → Bool
  | .object | .looseObject | .objectWithRest => true
  | _ => false

end Kind

end Conform
