import Conform.Schema.Coercion

/-!
Guessing a document type from names. A schema without description is known by the texts attached to
it; their words are compared with the usual names of the types, in a fixed order.
-/
namespace Conform

/-- The lower-case ASCII form of a character, and nothing when it has none. Two letters beyond ASCII
have one. -/
def Text.asciiLower? (c : Char) : Option Char :=
  if c.isAlphanum then some c.toLower
  else if c.toNat = 0x130 then some 'i'
  else if c.toNat = 0x212a then some 'k'
  else none

/-- Whether a word ends after a character although the character belongs to it. -/
def Text.endsWord (c : Char) : Bool := c.toNat = 0x130

def Text.wordsFrom (word : List Char) : List Char → List String
  | [] => [String.ofList word.reverse]
  | c :: rest => match asciiLower? c with
    | some lower =>
      if endsWord c then String.ofList (lower :: word).reverse :: wordsFrom [] rest
      else wordsFrom (lower :: word) rest
    | none => String.ofList word.reverse :: wordsFrom [] rest

/-- The words of a text in lower case: runs of ASCII letters and digits. -/
def Text.words (s : String) : List String := wordsFrom [] s.toList

namespace Inference

/-- The usual names of the document types, in the order in which they are looked for. -/
def typeNames : List (List String × String) := [
  (["str", "string", "text"], "string"),
  (["int", "integer"], "integer"),
  (["float", "number", "num"], "number"),
  (["bool", "boolean"], "boolean"),
  (["none", "null"], "null"),
  (["list", "array", "items"], "array"),
  (["dict", "object", "obj", "mapping"], "object")]

def typeOf? (texts : List String) : Option String :=
  let words := texts.flatMap Text.words
  (typeNames.find? fun entry => entry.1.any words.contains).map (·.2)

/-- The written name of a kind with a space before each capital letter. -/
def kindText (kind : Kind) : String :=
  String.join (kind.name.toList.map fun c =>
    if c.isUpper then String.ofList [' ', c] else String.ofList [c])

/-- What the text of a schema consists of: names, and the texts of values. -/
inductive Shown where
  | name (text : String)
  | value (value : Value)

namespace Shown

def isWritable : Shown → Bool
  | .name _ => true
  | .value v => v.isWritable

def text : Shown → String
  | .name text => text
  | .value v => v.quoted

end Shown

def docsShown (docs : Documentation) (default : Value) : List Shown :=
  [docs.description, docs.title, docs.examples.map .tuple, docs.brand, docs.deprecated,
    docs.readonly, some default].map fun said => .value (said.getD .null)

def ruleShown : Rule → List Shown
  | .plain function => [.name function.name]
  | .paired function _ => [.name function.name]
  | _ => []

mutual

def validatorShown : Validator → List Shown
  | ⟨rule, none, none⟩ => ruleShown rule ++ [.name "None"]
  | ⟨rule, some metadata, none⟩ => ruleShown rule ++ metadataShown metadata
  | ⟨_, none, some codec⟩ => .name "None" :: codecShown codec
  | ⟨_, some metadata, some codec⟩ => metadataShown metadata ++ codecShown codec

def codecShown : Codec → List Shown
  | ⟨encode, schema⟩ => .name encode.name :: validatorShown schema

def metadataShown : Metadata → List Shown
  | ⟨kind, parameters, children, docs, default⟩ =>
    .name (kindText kind) :: parametersShown parameters ++ childrenShown children
      ++ docsShown docs default

def parametersShown : List (String × Parameter) → List Shown
  | [] => []
  | (key, parameter) :: rest =>
    .value (.str key) :: parameterShown parameter ++ parametersShown rest

def parameterShown : Parameter → List Shown
  | .value v => [.value v]
  | .schema s => schemaShown s

def childrenShown : Children → List Shown
  | .absent => [.name "None"]
  | .one s => schemaShown s
  | .many ss => schemasShown ss
  | .fields entries => entriesShown entries
  | .deferred _ => []

def schemaShown : Schema → List Shown
  | .validator v => validatorShown v
  | .cls c => [.name c.name]
  | .choice classes => classes.map fun c => .name (if c = .null then "None" else c.name)
  | .null => [.name "None"]
  | .dict entries => entriesShown entries
  | .mapping entries => .name "mappingproxy" :: entriesShown entries
  | .list ss => schemasShown ss
  | .tuple ss => schemasShown ss
  | .value v => [.value v]
  | .function f => [.name f.name]
  | .foreign ⟨call, _, _, _⟩ => [.name call.name]

def schemasShown : List Schema → List Shown
  | [] => []
  | s :: rest => schemaShown s ++ schemasShown rest

def entriesShown : List (Value × Schema) → List Shown
  | [] => []
  | (key, s) :: rest => .value key :: schemaShown s ++ entriesShown rest

end

end Inference

end Conform
