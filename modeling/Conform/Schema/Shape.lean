import Conform.Schema.Coercion

/-!
Shapes: the named fields of object schemas, and operations that select, drop, add and name them.
-/
namespace Conform

namespace Schema

/-- The named fields of an object schema, or of a dictionary of schemas. -/
def shape? (schema : Schema) : Except Misuse (Option (List (Value × Schema))) :=
  match schema.entries? with
  | some entries => (toFields entries).map fun fields =>
    some (fields.map fun field => (field.1, .validator field.2))
  | none => .ok <| schema.metadata?.bind fun metadata =>
    if metadata.kind.hasFields then metadata.children.fields? else none

/-- The named fields of a schema that must have some. -/
def requireShape (schema : Schema) : Except Misuse (List (Value × Schema)) := do
  match ← schema.shape? with
  | some fields => return fields
  | none => throw (.noShape schema.typeName)

def requireKeys (keys : List Value) : Except Misuse Unit :=
  match keys.findSome? Value.unhashable? with
  | some found => .error (.unhashable found)
  | none => .ok ()

def shapeOf (schema : Schema) : Except Misuse Schema := do
  let shape ← schema.shape?
  return shape.elim .null .dict

def pick (schema : Schema) (keys : List Value) : Except Misuse Schema := do
  let fields ← schema.requireShape
  requireKeys keys
  let picked := keys.filterMap fun key => (Entries.get? fields key).map fun field => (key, field)
  return .dict (Entries.ofPairs picked)

/-- The fields without the given keys. -/
def without (schema : Schema) (keys : List Value) : Except Misuse Schema := do
  let fields ← schema.requireShape
  requireKeys keys
  return .dict (fields.filter fun field => !keys.any (· == field.1))

def extend (base extension : Schema) : Except Misuse Schema := do
  let fields ← base.requireShape
  let further ← extension.requireShape
  return .dict (Entries.merge fields further)

/-- Key names joined into one text; a key that is not text cannot be joined. -/
def keyNames (keys : List Value) : Except Misuse (List String) :=
  (keys.zipIdx).mapM fun (key, position) =>
    match key with
    | .str name => .ok name
    | key => .error (.joinItem position key.typeName)

def keyof (schema : Schema) : Except Misuse Validator := do
  let fields ← schema.requireShape
  let names ← keyNames (fields.map (·.1))
  return .described (.keyName names)
    (.withParameters .keyof [("values", .list (names.map .str))])

/-- Any dictionary: the output of the schema when it accepts, else the input as it is. -/
def lenient (schema : Schema) : Except Misuse Validator := do
  let inner ← schema.toValidator
  let shape ← (Schema.validator inner).shape?
  return .described (.lenient inner.rule)
    { Metadata.withChildren .partialObject (shape.elim .absent .fields) with
      docs := Metadata.docsOf inner.metadata }

/-- The output of the schema, in which no declared field may be absent. The declared fields are
those that the description of the schema names; the failures that name them are made beforehand. -/
def required (schema : Schema) : Except Misuse Validator := do
  let inner ← schema.toValidator
  let shape ← (Schema.validator inner).shape?
  let fields := shape.getD []
  Value.showing (fields.map (·.1)) <|
    .described (.required (fields.map (·.1)) inner.rule)
      { Metadata.withChildren .required (.fields fields) with
        docs := Metadata.docsOf inner.metadata }

/-- The schema that an optional or nullable wrapper wraps; any other schema is its own. -/
def unwrap (schema : Schema) : Schema :=
  let inner := schema.metadata?.bind fun metadata =>
    if metadata.kind.isWrapper then metadata.children.schema? else none
  inner.getD schema

def tupleWithRest (items : List Schema) (rest : Schema) : Except Misuse Validator := do
  let positions ← toValidators items
  if positions.isEmpty then Validator.tupleWithRest [] (.leaf .never)
  else
    let further ← rest.toValidator
    Validator.tupleWithRest positions further

/-- A read-only dictionary in a choice counts as the dictionary it shows. -/
def unlocked : Schema → Schema
  | .mapping entries => .dict entries
  | schema => schema

/-- Two schemas joined by an operator, of which at least one must be a validator. -/
def joined (operator : String) (join : List Validator → Except Misuse Validator)
    (left right : Schema) : Except Misuse Schema :=
  match left, right with
  | .validator _, _ | _, .validator _ => do
    let members ← toValidators [left, right]
    let v ← join members
    return .validator v
  | left, right => .error (.operands operator left.typeName right.typeName)

/-- The bare classes that a side of a choice stands for; null stands for its class. -/
def classes? : Schema → Option (List Class)
  | .cls c => some [c]
  | .choice classes => some classes
  | .null => some [.null]
  | _ => none

/-- A choice between bare classes, a repeated one counted once; a lone class is no choice. -/
def ofClasses (classes : List Class) : Schema :=
  match classes.eraseDups with
  | [only] => .cls only
  | several => .choice several

/-- `left | right`: a choice between two schemas; two dictionaries are merged, and bare classes stay
bare. A validator on the left takes the right schema as it is. -/
def either (left right : Schema) : Except Misuse Schema :=
  match left, right with
  | .validator v, right => joined "|" Validator.union (.validator v) right
  | .null, .null => joined "|" Validator.union .null .null
  | left, right => match left.entries?, right.entries?, left.classes?, right.classes? with
    | some fields, some further, _, _ => .ok (.dict (Entries.merge fields further))
    | _, _, some classes, some further => .ok (ofClasses (classes ++ further))
    | _, _, _, _ => joined "|" Validator.union left.unlocked right.unlocked

/-- `left & right`: both of two schemas. -/
def both (left right : Schema) : Except Misuse Schema := joined "&" Validator.intersect left right

end Schema

end Conform
