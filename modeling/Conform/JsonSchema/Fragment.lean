import Conform.JsonSchema.Inference
import Conform.World

/-!
Fragments of document schemas: insertion-ordered objects whose keywords take values, further
fragments, and, where a parameter was one, schemas.
-/
namespace Conform

/-- A part of a document schema. -/
inductive Fragment where
  | value (value : Value)
  | schema (schema : Schema)
  | list (items : List Fragment)
  | object (entries : List (Value × Fragment))

/-- The keywords of a document schema in order. -/
abbrev Keywords := List (Value × Fragment)

namespace Keywords

def put (keywords : Keywords) (name : String) (fragment : Fragment) : Keywords :=
  Entries.insert keywords (.str name) fragment

def putValue (keywords : Keywords) (name : String) (value : Value) : Keywords :=
  keywords.put name (.value value)

def ofType (name : String) : Keywords := [(.str "type", .value (.str name))]

/-- Keywords that refer to several alternatives or members. -/
def ofList (name : String) (items : List Keywords) : Keywords :=
  [(.str name, .list (items.map .object))]

/-- The keywords that a document schema takes over from the parameters of a description. -/
def copied : List String := ["minLength", "maxLength", "pattern", "format", "minimum", "maximum",
  "exclusiveMinimum", "exclusiveMaximum", "multipleOf", "minItems", "maxItems", "uniqueItems",
  "minProperties", "maxProperties"]

def ofParameter : Parameter → Fragment
  | .value v => .value v
  | .schema s => .schema s

def ofParameters (parameters : List (String × Parameter)) : Keywords :=
  (parameters.filter fun entry => copied.contains entry.1).map fun entry =>
    (.str entry.1, ofParameter entry.2)

def overlay (keywords further : Keywords) : Keywords := Entries.merge keywords further

def listed : Parameter → Except Misuse Fragment
  | .value v => match v.iterate? with
    | some items => .ok (.value (.list items))
    | none => .error (.notIterable v.typeName)
  | .schema s => match s with
    | .list items | .tuple items => .ok (.list (items.map .schema))
    | .dict entries | .mapping entries => .ok (.value (.list (entries.map (·.1))))
    | other => .error (.notIterable other.typeName)

def document (keywords : Keywords) (docs : Documentation) (default : Value) : Keywords :=
  let put (name : String) (value : Option Value) (keywords : Keywords) : Keywords :=
    value.elim keywords (keywords.putValue name)
  keywords
    |> put "description" docs.description
    |> put "title" docs.title
    |> put "examples" (docs.examples.map .list)
    |> put "default" (if default.isMissing then none else some default)
    |> put "deprecated" docs.deprecated
    |> put "readOnly" docs.readonly

/-- What a schema without description is known to be by its names. -/
def inferred (texts : List String) : Keywords :=
  (Inference.typeOf? texts).elim [] ofType

/-- What a schema without description is known to be by all that its text shows, which has to be
written first. -/
def guessed (shown : List Inference.Shown) : Except Misuse Keywords :=
  if shown.all (·.isWritable) then .ok (inferred (shown.map (·.text)))
  else .error .unwritableInteger

/-- The fragment that admits null beside what the given one admits: null is added to the types, and
without a type it is an alternative. -/
def orNull (keywords : Keywords) : Keywords :=
  let withTypes (types : List Value) : Keywords := keywords.putValue "type" (.list types)
  match Entries.get? keywords (.str "type") with
  | some (.value (.list types)) =>
    withTypes (if types.any (· == .str "null") then types else types ++ [.str "null"])
  | some (.value name) => withTypes [name, .str "null"]
  | _ => ofList "anyOf" [keywords, ofType "null"]

/-- Whether a fragment says no more than that something is text. -/
def isPlainText (keywords : Keywords) : Bool :=
  match keywords with
  | [(key, .value name)] => key == .str "type" && name == .str "string"
  | _ => false

end Keywords

end Conform
