import Conform.Validator.Composites

/-!
Reading schemas as validators: classes become type checks, dictionaries objects, lists arrays,
tuples tuples and functions throwing validators.
-/
namespace Conform

namespace Schema

mutual

def ofValue : Value → Schema
  | .null => .null
  | .list items => .list (ofValues items)
  | .tuple items => .tuple (ofValues items)
  | .dict entries => .dict (ofEntries entries)
  | .mapping entries => .mapping (ofEntries entries)
  | v => .value v

def ofValues : List Value → List Schema
  | [] => []
  | item :: rest => ofValue item :: ofValues rest

def ofEntries : List (Value × Value) → List (Value × Schema)
  | [] => []
  | (key, item) :: rest => (key, ofValue item) :: ofEntries rest

end

mutual

/-- The plain value that a schema is, if there is no more to it than values. -/
def value? : Schema → Option Value
  | .null => some .null
  | .value v => some v
  | .list items => (values? items).map .list
  | .tuple items => (values? items).map .tuple
  | .dict entries => (valueEntries? entries).map .dict
  | .mapping entries => (valueEntries? entries).map .mapping
  | _ => none

def values? : List Schema → Option (List Value)
  | [] => some []
  | item :: rest => do
    let v ← value? item
    let vs ← values? rest
    return v :: vs

/-- The plain values that named schemas are, under their keys. -/
def valueEntries? : List (Value × Schema) → Option (List (Value × Value))
  | [] => some []
  | (key, item) :: rest => do
    let v ← value? item
    let entries ← valueEntries? rest
    return (key, v) :: entries

end

def typeName : Schema → String
  | .validator v => if v.codec.isSome then "Codec" else "V"
  | .cls _ => "type"
  | .choice _ => "UnionType"
  | .null => "NoneType"
  | .dict _ => "dict"
  | .mapping _ => "mappingproxy"
  | .list _ => "list"
  | .tuple _ => "tuple"
  | .value v => v.typeName
  | .function _ => "function"
  | .foreign _ => "Foreign"

/-- The description attached to a schema, if any. -/
def metadata? : Schema → Option Metadata
  | .validator v => v.metadata
  | .foreign object => object.metadata
  | _ => none

def entries? : Schema → Option (List (Value × Schema))
  | .dict entries | .mapping entries => some entries
  | _ => none

/-- A callable object as a validator: with its result form when it has a usable one. -/
def ofForeign (object : Foreign) : Validator :=
  match object.result with
  | some result => .of (.paired object.call result) object.metadata
  | none => .of (.plain object.call) object.metadata

mutual

/-- Reads a schema as a validator. -/
def toValidator : Schema → Except Misuse Validator
  | .validator v => .ok v
  | .cls c => .ok (.ofClass c)
  | .null => .ok (.leaf .null)
  | .dict entries => do
    let fields ← toFields entries
    return .object fields
  | .list items => do
    match ← toValidators items with
    | [] => throw .emptyListSchema
    | [item] => return .array item
    | options =>
      let item ← Validator.union options
      return .array item
  | .tuple items => do
    let positions ← toValidators items
    Validator.tuple positions
  | .function f => .ok (.of (.plain f) none)
  | .foreign object => .ok (ofForeign object)
  | .choice _ => .error (.notConvertible "UnionType")
  | .mapping _ => .error (.notConvertible "mappingproxy")
  | .value v => .error (.notConvertible v.typeName)

def toValidators : List Schema → Except Misuse (List Validator)
  | [] => .ok []
  | item :: rest => do
    let v ← toValidator item
    let vs ← toValidators rest
    return v :: vs

/-- Reads the values of named schemas as validators in order. -/
def toFields : List (Value × Schema) → Except Misuse (List (Value × Validator))
  | [] => .ok []
  | (key, item) :: rest => do
    let v ← toValidator item
    let fields ← toFields rest
    return (key, v) :: fields

end

/-- Reads the shape of an object. -/
def toShape (schema : Schema) : Except Misuse (List (Value × Validator)) :=
  match schema.entries? with
  | some entries => toFields entries
  | none => .error (.shapeNotMapping schema.typeName)

end Schema

/-- The parameter that a schema gives: its value when it is no more than one. -/
def Parameter.ofSchema (schema : Schema) : Parameter := schema.value?.elim (.schema schema) .value

def Children.schema? : Children → Option Schema
  | .absent => none
  | .one schema => some schema
  | .many schemas => some (.tuple schemas)
  | .fields entries => some (.dict entries)
  | .deferred _ => some (.function ⟨"resolve", fun _ => .misuse .tooDeep⟩)

def Children.fields? : Children → Option (List (Value × Schema))
  | .fields entries => some entries
  | _ => none

/-- The children that a schema stands for: null for none, a list or tuple for several, a dictionary
for named ones. -/
def Children.ofSchema : Schema → Children
  | .null => .absent
  | .list items | .tuple items => .many items
  | .dict entries | .mapping entries => .fields entries
  | schema => .one schema

end Conform
