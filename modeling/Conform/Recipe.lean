import Conform.Schema.Shape

/-!
Recipes for schemas: what user code gives, names to look up, schemas to build on first use, and pure
constructions from parts. A recipe is the factory that a lazy schema keeps until it is needed.
-/
namespace Conform

/-- How to build a schema. User code may log events on the way, and may raise anything instead of
giving a schema; as a part of a construction it runs when its turn comes. -/
inductive Recipe where
  | calling (run : Traced Schema)
  | reference (name : String)
  | lazy (label : Option String) (body : Recipe)
  | combine (construction : List Schema → Except Misuse Schema) (parts : List Recipe)

namespace Recipe

mutual

/-- The number of lazy schemas that building a recipe, and everything in it, can bring forth. -/
def lazyCount : Recipe → Nat
  | .calling _ | .reference _ => 0
  | .lazy _ body => lazyCount body + 1
  | .combine _ parts => lazyCountIn parts

/-- The number of lazy schemas that building recipes can bring forth. -/
def lazyCountIn : List Recipe → Nat
  | [] => 0
  | part :: rest => lazyCount part + lazyCountIn rest

end

/-- A schema at hand, or the misuse that making it is. -/
def given (schema : Except Misuse Schema) : Recipe := .calling (.ofConstruction schema)

/-- A schema at hand. -/
def ofSchema (schema : Schema) : Recipe := given (.ok schema)

def ofValidator (v : Validator) : Recipe := given (.ok (.validator v))

/-- A validator at hand, or the misuse that building it is. -/
def attempt (v : Except Misuse Validator) : Recipe := given (v.map .validator)

def withSchema (construction : Schema → Except Misuse Schema) (part : Recipe) : Recipe :=
  .combine (fun parts => construction (parts.headD .null)) [part]

def withSchemas (construction : Schema → Schema → Except Misuse Schema) (first second : Recipe) :
    Recipe :=
  .combine (fun parts => construction (parts.headD .null) ((parts.drop 1).headD .null))
    [first, second]

/-- A construction from one validator that may be a misuse. -/
def checked (construction : Validator → Except Misuse Validator) (part : Recipe) : Recipe :=
  withSchema (fun schema => do
    let v ← schema.toValidator
    let made ← construction v
    return .validator made) part

def wrapped (construction : Validator → Validator) (part : Recipe) : Recipe :=
  checked (fun v => .ok (construction v)) part

def paired (construction : Validator → Validator → Validator) (first second : Recipe) : Recipe :=
  withSchemas (fun first second => do
    let v ← first.toValidator
    let w ← second.toValidator
    return .validator (construction v w)) first second

def joined (construction : List Validator → Except Misuse Validator)
    (parts : List Recipe) : Recipe :=
  .combine (fun schemas => do
    let vs ← Schema.toValidators schemas
    let made ← construction vs
    return .validator made) parts

def shaped (construction : List (Value × Validator) → Validator) (shape : Recipe) : Recipe :=
  withSchema (fun schema => do
    let fields ← schema.toShape
    return .validator (construction fields)) shape

def keyed (make : List (Value × Schema) → Schema) (entries : List (Value × Recipe)) : Recipe :=
  .combine (fun schemas => .ok (make (Entries.ofPairs ((entries.map (·.1)).zip schemas))))
    (entries.map (·.2))

end Recipe

end Conform
