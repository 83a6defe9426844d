import Conform.Report
import Conform.Schema.Coercion
import Conform.Text.Capital

/-!
Record models of object schemas: the type of every field, whether it is required, and its
default. Types are read off descriptions; alternatives are flattened and equal ones removed.
-/
namespace Conform

mutual

/-- What a field may hold. -/
inductive ValueType where
  | any | str | int | float | bool | null
  | literal (values : List Value)
  | list (item : ValueType)
  | set (item : ValueType)
  | dict (key value : ValueType)
  | union (members : List ValueType)
  | model (model : Model)

/-- A record model: a name, a description and fields in order. -/
structure Model where
  name : String
  doc : Option Value
  fields : List (String × ModelField)

/-- A field of a model: what it holds, and its default; without default it is required. -/
structure ModelField where
  held : ValueType
  default : Option Value

end

namespace ValueType

def sameChoice (a b : Value) : Bool := a == b && a.typeName == b.typeName

def choicesWithin (values others : List Value) : Bool :=
  values.all fun v => others.any (sameChoice v)

mutual

/-- Whether two types are equal; models are equal to nothing. -/
def same : ValueType → ValueType → Bool
  | .any, .any | .str, .str | .int, .int | .float, .float | .bool, .bool | .null, .null => true
  | .literal vs, .literal ws => choicesWithin vs ws && choicesWithin ws vs
  | .list a, .list b => same a b
  | .set a, .set b => same a b
  | .dict a b, .dict c d => same a c && same b d
  | .union as, .union bs =>
    let table := memberTable as bs
    Value.everyRow table && Value.everyColumn bs.length table
  | _, _ => false
termination_by structural a => a

/-- For each of some types, which of others it equals. -/
def memberTable : List ValueType → List ValueType → List (List Bool)
  | [], _ => []
  | a :: rest, bs => bs.map (same a) :: memberTable rest bs
termination_by structural as => as

end

mutual

/-- The name of the first type inside a type that keeps it from being compared. -/
def unhashable? : ValueType → Option String
  | .literal values => values.findSome? Value.unhashable?
  | .list item => unhashable? item
  | .set item => unhashable? item
  | .dict key value => (unhashable? key).orElse fun _ => unhashable? value
  | .union members => unhashableIn? members
  | _ => none

/-- The name of the first type inside types that keeps them from being compared. -/
def unhashableIn? : List ValueType → Option String
  | [] => none
  | a :: rest => (unhashable? a).orElse fun _ => unhashableIn? rest

end

/-- The name of the first type that keeps two types from being compared. -/
def clash? : ValueType → ValueType → Option String
  | .literal vs, .literal ws => (vs ++ ws).findSome? Value.unhashable?
  | .list a, .list b => clash? a b
  | .set a, .set b => clash? a b
  | .dict a b, .dict c d =>
    (clash? a c).orElse fun _ => if same a c then clash? b d else none
  | .union as, .union bs => unhashableIn? (as ++ bs)
  | _, _ => none

/-- Whether a type equals one of those kept so far, which are compared with it in order. -/
def isRepeated (a : ValueType) : List ValueType → Except Misuse Bool
  | [] => .ok false
  | kept :: rest => match clash? kept a with
    | some found => .error (.unhashable found)
    | none => if same kept a then .ok true else isRepeated a rest

def alternatives : ValueType → List ValueType
  | .union members => members
  | a => [a]

/-- Types without those that equal an earlier one. -/
def distinct (members : List ValueType) : Except Misuse (List ValueType) :=
  members.foldlM (fun kept a => do
    let repeated ← isRepeated a kept
    return if repeated then kept else kept ++ [a]) []

/-- The choice between types: flattened, without repetition, a lone member for itself. -/
def choice (members : List ValueType) : Except Misuse ValueType := do
  match ← distinct (members.flatMap alternatives) with
  | [only] => return only
  | several => return .union several

/-- The type of literal values; a repeated choice is dropped when all can be compared. -/
def ofLiterals (values : List Value) : ValueType :=
  if (values.findSome? Value.unhashable?).isSome then .literal values
  else .literal <| values.foldl
    (fun kept v => if kept.any (sameChoice v) then kept else kept ++ [v]) []

def ofLeaf? : Kind → Option ValueType
  | .string => some .str
  | .number => some .float
  | .integer => some .int
  | .boolean => some .bool
  | .null => some .null
  | .any | .unknown | .instanceOf => some .any
  | _ => none

def requiredParameter (name : String) (parameters : List (String × Parameter)) :
    Except Misuse Parameter :=
  match Entries.get? parameters name with
  | some parameter => .ok parameter
  | none => .error (.absentKey (.str name))

/-- The literal type of one value; a tuple gives several. -/
def ofLiteral (parameters : List (String × Parameter)) : Except Misuse ValueType := do
  match ← requiredParameter "value" parameters with
  | .value (.tuple values) => return ofLiterals values
  | .value v => return ofLiterals [v]
  | .schema _ => return .any

def ofListed (parameters : List (String × Parameter)) : Except Misuse ValueType := do
  match ← requiredParameter "values" parameters with
  | .value v => match v.iterate? with
    | some values => return ofLiterals values
    | none => throw (.notIterable v.typeName)
  | .schema schema => match schema.entries? with
    | some entries => return ofLiterals (entries.map (·.1))
    | none => throw (.notIterable schema.typeName)

/-- The name of a model below another: words joined by low lines or dashes are run together, each
capitalized. -/
def nested (name : String) (key : String) : String :=
  let words := (key.replace "-" "_").splitOn "_"
  name ++ String.join (words.map Text.capitalized)

def defaultOf (kind : Kind) (default : Value) : Option Value :=
  match kind with
  | .default => some default
  | .optional | .exactOptional | .nullish => some .null
  | _ => none

/-- A field of a model; in a model of optional fields a required one may also be null and is null
when absent. -/
def fieldOf (allOptional : Bool) (held : ValueType) (default : Option Value) :
    Except Misuse ModelField :=
  if allOptional && default.isNone then
    (choice [held, .null]).map fun widened => ⟨widened, some .null⟩
  else .ok ⟨held, default⟩

def named (fields : List (Value × ModelField)) : Except Misuse (List (String × ModelField)) := do
  let _ ← Failure.joinTexts ", " (fields.map (·.1))
  return fields.map fun field => (field.1.text, field.2)

mutual

/-- The type of a schema; without description it may hold anything. -/
def ofSchema (name : String) : Schema → Except Misuse ValueType
  | .validator ⟨_, some metadata, _⟩ => ofMetadata name metadata
  | .foreign ⟨_, _, _, some metadata⟩ => ofMetadata name metadata
  | _ => .ok .any
termination_by structural schema => schema

def ofMetadata (name : String) : Metadata → Except Misuse ValueType
  | ⟨kind, parameters, children, docs, _⟩ =>
    match ofLeaf? kind with
    | some leaf => .ok leaf
    | none => match kind with
      | .literal => ofLiteral parameters
      | .enum | .keyof => ofListed parameters
      | .object | .looseObject | .objectWithRest | .partialObject | .required => do
        match ← ofFields name (kind == .partialObject) children with
        | some fields => return .model ⟨name, docs.description.filter Value.truthy, fields⟩
        | none => return .any
      | .array => (ofChild name children).map .list
      | .set => (ofChild name children).map .set
      | .tuple => .ok (.list .any)
      | .record | .map => ofPair name children
      | .union | .discriminatedUnion | .variant => do
        match ← ofOptions name children with
        | [only] => return only
        | options => choice options
      | .nullable | .nullish | .optional | .exactOptional => do
        let inner ← ofChild name children
        choice [inner, .null]
      | .pipe => ofFirst name children
      | .default | .fallback | .catch | .refine | .nonNullable | .nonNullish | .nonOptional =>
        ofChild name children
      | _ => .ok .any
termination_by structural metadata => metadata

def ofChild (name : String) : Children → Except Misuse ValueType
  | .one schema => ofSchema name schema
  | _ => .ok .any
termination_by structural children => children

def ofFirst (name : String) : Children → Except Misuse ValueType
  | .many (first :: _) => ofSchema name first
  | .one schema => .error (.notSubscriptable schema.typeName)
  | .fields (entry :: rest) => ofZero name (entry :: rest)
  | _ => .ok .any
termination_by structural children => children

def ofZero (name : String) : List (Value × Schema) → Except Misuse ValueType
  | [] => .error (.absentKey (.int 0))
  | (key, schema) :: rest => if key == .int 0 then ofSchema name schema else ofZero name rest
termination_by structural entries => entries

def ofPair (name : String) : Children → Except Misuse ValueType
  | .many [key, value] => do
    let k ← ofSchema name key
    let v ← ofSchema name value
    return .dict k v
  | .fields [_, _] => .ok (.dict .any .any)
  | .absent => .error (.cannotUnpack "NoneType")
  | .one schema => .error (.cannotUnpack schema.typeName)
  | .many schemas =>
    .error (if schemas.length < 2 then .tooFewToUnpack 2 schemas.length else .tooManyToUnpack 2)
  | .fields entries =>
    .error (if entries.length < 2 then .tooFewToUnpack 2 entries.length else .tooManyToUnpack 2)
  | .deferred _ => .error (.cannotUnpack "function")
termination_by structural children => children

/-- The types of alternatives, models among them named by their position. -/
def ofOptions (name : String) : Children → Except Misuse (List ValueType)
  | .many [] | .fields [] => .error .noFirstOption
  | .many schemas => ofPositions name 0 schemas
  | .fields entries => .ok (entries.map fun _ => .any)
  | .absent => .error (.notIterable "NoneType")
  | .one schema => .error (.notIterable schema.typeName)
  | .deferred _ => .error (.notIterable "function")
termination_by structural children => children

/-- The types of schemas, models among them named by their position. -/
def ofPositions (name : String) : Nat → List Schema → Except Misuse (List ValueType)
  | _, [] => .ok []
  | i, schema :: rest => do
    let a ← ofSchema (name ++ toString i) schema
    let further ← ofPositions name (i + 1) rest
    return a :: further
termination_by structural _ schemas => schemas

def ofFields (name : String) (allOptional : Bool) :
    Children → Except Misuse (Option (List (String × ModelField)))
  | .fields entries => do
    let fields ← ofEntries name allOptional entries
    return some (← named fields)
  | _ => .ok none
termination_by structural children => children

def ofEntries (name : String) (allOptional : Bool) :
    List (Value × Schema) → Except Misuse (List (Value × ModelField))
  | [] => .ok []
  | (key, schema) :: rest => do
    let below ← Value.showing [key] (nested name key.text)
    let held ← ofSchema below schema
    let default := schema.metadata?.bind fun metadata => defaultOf metadata.kind metadata.default
    let field ← fieldOf allOptional held default
    let further ← ofEntries name allOptional rest
    return (key, field) :: further
termination_by structural entries => entries

end

end ValueType

def Schema.toModel (name : String) (schema : Schema) : Except Misuse Model := do
  let v ← schema.toValidator
  match v.metadata with
  | none => throw .notObjectSchema
  | some metadata =>
    if metadata.kind.hasFields then
      match ← ValueType.ofMetadata name metadata with
      | .model model => return model
      | _ => throw .notObjectSchema
    else throw .notObjectSchema

end Conform
