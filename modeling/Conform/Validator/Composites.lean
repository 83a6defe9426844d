import Conform.Validator.Wrappers

/-!
Validators of several others: sequences of steps, alternatives, conjunctions, objects, lists,
tuples, dictionaries and sets.
-/
namespace Conform

namespace Validator

def rules (vs : List Validator) : List Rule := vs.map (·.rule)

def fieldRules (fields : List (Value × Validator)) : List (Value × Rule) :=
  fields.map fun field => (field.1, field.2.rule)

def nonemptyParts (constructor needed : String) (vs : List Validator) (make : Validator) :
    Except Misuse Validator :=
  if vs.isEmpty then .error (.nothingGiven constructor needed) else .ok make

/-- Steps from left to right; a lone step is its own sequence. -/
def pipe (steps : List Validator) : Except Misuse Validator :=
  let metadata := steps.map (·.metadata)
  let rule := match steps with
    | [only] => only.rule
    | steps => .pipe (rules steps)
  nonemptyParts "pipe" "at least one validator" steps <| described rule
    { kind := .pipe
      parameters := Metadata.mergeParameters metadata
      children := .ofValidators steps
      docs := Metadata.mergeDocs metadata
      default := .missing }

/-- The first of several alternatives that accepts. -/
def union (options : List Validator) : Except Misuse Validator :=
  nonemptyParts "union" "at least one schema" options <|
    described (.union (rules options)) (.withChildren .union (.ofValidators options))

/-- The first of several objects that accepts, tagged by a key that takes no part in the choice. -/
def discriminatedUnion (key : Value) (options : List Validator) : Except Misuse Validator :=
  nonemptyParts "discriminated_union" "at least one schema" options <|
    described (.discriminatedUnion (rules options))
      { Metadata.withParameters .discriminatedUnion [("discriminator", key)] with
        children := .ofValidators options }

/-- The first of several objects that accepts; the key appears in the failure only. -/
def variant (key : Value) (options : List Validator) : Except Misuse Validator :=
  nonemptyParts "variant" "at least one schema" options <|
    described (.variant key (rules options))
      { Metadata.withParameters .variant [("discriminator", key)] with
        children := .ofValidators options }

/-- All of several schemas, their outputs merged. -/
def intersect (members : List Validator) : Except Misuse Validator :=
  nonemptyParts "intersect" "at least one schema" members <|
    described (.intersect (rules members)) (.withChildren .intersect (.ofValidators members))

def array (item : Validator) : Validator :=
  described (.array item.rule) (.withChildren .array (.ofValidator item))

def tuple (items : List Validator) : Except Misuse Validator :=
  nonemptyParts "tuple_" "at least one schema" items <|
    described (.tuple (rules items)) (.withChildren .tuple (.ofValidators items))

/-- A list that begins with these positions; what follows is dropped. -/
def looseTuple (items : List Validator) : Except Misuse Validator :=
  nonemptyParts "loose_tuple" "at least one schema" items <|
    described (.looseTuple (rules items))
      { Metadata.withParameters .tuple [("loose", .bool true)] with
        children := .ofValidators items }

/-- A list that begins with these positions, every further item passing `rest`. -/
def tupleWithRest (items : List Validator) (rest : Validator) : Except Misuse Validator :=
  nonemptyParts "tuple_with_rest" "at least one schema" items <|
    described (.tupleWithRest (rules items) rest.rule)
      { Metadata.withChildren .tuple (.ofValidators items) with
        parameters := [("rest", .schema (.validator rest))] }

/-- Named fields; other keys are dropped. -/
def object (fields : List (Value × Validator)) : Validator :=
  described (.object (fieldRules fields)) (.withChildren .object (.ofFields fields))

/-- Named fields; other keys are kept. -/
def looseObject (fields : List (Value × Validator)) : Validator :=
  described (.looseObject (fieldRules fields)) (.withChildren .looseObject (.ofFields fields))

/-- Named fields; the values of other keys pass `rest`. -/
def objectWithRest (fields : List (Value × Validator)) (rest : Validator) : Validator :=
  described (.objectWithRest (fieldRules fields) rest.rule)
    { Metadata.withChildren .objectWithRest (.ofFields fields) with
      parameters := [("rest", .schema (.validator rest))] }

/-- The output of a schema next to the unknown keys of its input. -/
def passthrough (inner : Validator) : Validator :=
  of (.passthrough inner.rule) <| inner.metadata.map fun metadata =>
    if metadata.kind = .object then { metadata with kind := .looseObject } else metadata

/-- A dictionary whose keys and values pass. -/
def record (key value : Validator) : Validator :=
  described (.record key.rule value.rule) (.withChildren .record (.ofValidators [key, value]))

/-- A dictionary of any keys whose keys and values pass. -/
def map (key value : Validator) : Validator :=
  described (.map key.rule value.rule) (.withChildren .map (.ofValidators [key, value]))

def set (item : Validator) : Validator :=
  described (.set item.rule) (.withChildren .set (.ofValidator item))

/-- A validator built on first use. -/
def lazy (id : Nat) : Validator := described (.lazy id) (.withChildren .lazy (.deferred id))

end Validator

end Conform
