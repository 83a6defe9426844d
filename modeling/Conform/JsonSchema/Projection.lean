import Conform.JsonSchema.Fragment

/-!
Document schemas of schemas, read off their descriptions, from the document schemas of the lazy
schemas in them.
-/
namespace Conform

namespace Projection

/-- Whether fields are listed as required: as their own kind says, always, or never. -/
inductive Listing where
  | byKind | always | never
  deriving DecidableEq

def Listing.lists (listing : Listing) (field : Schema) : Bool :=
  match listing with
  | .always => true
  | .never => false
  | .byKind => !((field.metadata?.map fun metadata => metadata.kind.acceptsAbsence).getD false)

def objectOf (properties : Keywords) (required : List Value) : Keywords :=
  let keywords := (Keywords.ofType "object").put "properties" (.object properties)
  if required.isEmpty then keywords else keywords.putValue "required" (.list required)

/-- The fragment of a fixed list of positions with what may follow them. -/
def tupleOf (draft : String) (positions : List Keywords) (rest : Option Keywords) (isOpen : Bool) :
    Keywords :=
  let count : Value := .int positions.length
  let listed : Fragment := .list (positions.map .object)
  let start := (Keywords.ofType "array").putValue "minItems" count
  let (here, beyond) := if draft = "draft-2020-12" then ("prefixItems", "items")
    else ("items", "additionalItems")
  let placed := start.put here listed
  match rest with
  | some rest => placed.put beyond (.object rest)
  | none => if isOpen then placed else placed.putValue "maxItems" count

/-- The keywords that the steps of a sequence after the first add: the parameters of checks. -/
def withChecks (keywords : Keywords) (steps : List Schema) : Keywords :=
  steps.foldl (fun keywords step => match step.metadata? with
    | some metadata =>
      if metadata.kind = .check then keywords.overlay (.ofParameters metadata.parameters)
      else keywords
    | none => keywords) keywords

def isTrue : Option Parameter → Bool
  | some (.value v) => v.truthy
  | some (.schema _) => true
  | none => false

/-- What a class gives when it is called without an argument, as far as its text tells a type. -/
def emptyInstance : Class → List String
  | .null => ["None"]
  | .any => ["object"]
  | _ => []

/-- Refuses a child where a pair of children is needed. -/
def noPair {α : Type} : Children → Eval α
  | .absent => Eval.misuse (.cannotUnpack "NoneType")
  | .one s => Eval.misuse (.cannotUnpack s.typeName)
  | .many ss => count ss.length
  | .fields entries => count entries.length
  | .deferred _ => Eval.misuse (.cannotUnpack "function")
where
  /-- Refuses a wrong number of children. -/
  count (n : Nat) : Eval α :=
    Eval.misuse (if n < 2 then .tooFewToUnpack 2 n else .tooManyToUnpack 2)

def guess (shown : List Inference.Shown) : Eval Keywords :=
  Eval.ofConstruction (Keywords.guessed shown)

def guessValue (v : Value) : Eval Keywords := guess (Inference.schemaShown (.ofValue v))

/-- The document schemas that the texts of values suggest. -/
def guessAll : List Value → Eval (List Keywords)
  | [] => return []
  | v :: rest => do
    let keywords ← guessValue v
    let further ← guessAll rest
    return keywords :: further

/-- The document schema of what a deferred child is built to. -/
def ofDeferred (onLazy : Nat → Eval Keywords) : Children → Eval Keywords
  | .absent => return []
  | .deferred id => onLazy id
  | .one schema => match schema with
    | .validator _ => Eval.misuse (.missingArgument "V.__call__" "value")
    | .cls c => return .inferred (emptyInstance c)
    | other => Eval.misuse (.notCallable other.typeName)
  | .many _ => Eval.misuse (.notCallable "tuple")
  | .fields _ => Eval.misuse (.notCallable "dict")

variable (draft : String) (onLazy : Nat → Eval Keywords)

mutual

/-- The document schema of a schema. -/
def ofSchema : Schema → Eval Keywords
  | .validator ⟨_, some metadata, _⟩ => ofMetadata metadata
  | .foreign ⟨_, _, _, some metadata⟩ => ofMetadata metadata
  | schema => guess (Inference.schemaShown schema)
termination_by structural schema => schema

/-- The document schema of a description, by its kind, with its documentation added. -/
def ofMetadata : Metadata → Eval Keywords
  | ⟨kind, parameters, children, docs, default⟩ => do
    let copied := Keywords.ofParameters parameters
    let keywords : Eval Keywords := match kind with
      | .string => pure <| (Keywords.ofType "string").overlay copied
      | .number => pure <| (Keywords.ofType "number").overlay copied
      | .integer => pure <| (Keywords.ofType "integer").overlay copied
      | .boolean => pure <| .ofType "boolean"
      | .null => pure <| .ofType "null"
      | .any | .unknown | .instanceOf => pure <| []
      | .never => pure <| [(.str "not", .object [])]
      | .literal => pure <| match Entries.get? parameters "value" with
        | some parameter => [(.str "const", Keywords.ofParameter parameter)]
        | none => []
      | .enum => match Entries.get? parameters "values" with
        | some parameter => do
          let listed ← Eval.ofConstruction (Keywords.listed parameter)
          return [(.str "enum", listed)]
        | none => pure <| []
      | .keyof => do
        let values := (Entries.get? parameters "values").getD (.value (.list []))
        let listed ← Eval.ofConstruction (Keywords.listed values)
        return (Keywords.ofType "string").put "enum" listed
      | .check => pure copied
      | .object => ofShape .byKind children
      | .looseObject => do
        let object ← ofShape .byKind children
        return object.putValue "additionalProperties" (.bool true)
      | .objectWithRest => do
        let rest ← ofRest parameters
        let object ← ofShape .byKind children
        return object.put "additionalProperties" (rest.elim (.value (.bool true)) .object)
      | .partialObject => ofShape .never children
      | .required => ofShape .always children
      | .array => do
        let item ← ofChild children
        let start := Keywords.ofType "array"
        return (item.elim start fun item => start.put "items" (.object item)).overlay copied
      | .tuple => do
        let positions ← ofPositions children
        let rest ← ofRest parameters
        return tupleOf draft positions rest (isTrue (Entries.get? parameters "loose"))
      | .record => do
        let (value, key) ← ofPair children
        let object := (Keywords.ofType "object").put "additionalProperties" (.object value)
        return if key.isEmpty || key.isPlainText then object
          else object.put "propertyNames" (.object key)
      | .map => do
        let value ← ofSecond children
        return (Keywords.ofType "object").put "additionalProperties" (.object value)
      | .set => do
        let item ← ofChild children
        let start := (Keywords.ofType "array").putValue "uniqueItems" (.bool true)
        return item.elim start fun item => start.put "items" (.object item)
      | .lazy => ofDeferred onLazy children
      | .pipe => ofSteps children
      | .union | .discriminatedUnion | .variant => do
        let options ← ofPositions children
        return if options.isEmpty then [] else .ofList "anyOf" options
      | .intersect => do
        let members ← ofPositions children
        return if members.isEmpty then [] else .ofList "allOf" members
      | .nullable | .nullish => do
        let inner ← ofChild children
        return inner.elim (.ofType "null") Keywords.orNull
      | .optional | .exactOptional | .default | .fallback | .nonNullable | .nonNullish
      | .nonOptional | .refine | .transform | .catch | .codec => do
        let inner ← ofChild children
        return inner.getD []
    let described ← keywords
    return described.document docs default
termination_by structural metadata => metadata

/-- The document schema of the child, or of the children taken as one schema. -/
def ofChild : Children → Eval (Option Keywords)
  | .absent => return none
  | .one schema => do
    let keywords ← ofSchema schema
    return some keywords
  | .many schemas => do
    let keywords ← guess (Inference.schemasShown schemas)
    return some keywords
  | .fields entries => do
    let keywords ← guess (Inference.entriesShown entries)
    return some keywords
  | .deferred _ => return some []
termination_by structural children => children

def ofPositions : Children → Eval (List Keywords)
  | .absent => return []
  | .many schemas => ofSchemas schemas
  | .fields entries => guessAll (entries.map (·.1))
  | .one schema => Eval.misuse (.notIterable schema.typeName)
  | .deferred _ => Eval.misuse (.notIterable "function")
termination_by structural children => children

/-- The document schemas of a value child and, after it, of the key child before it. -/
def ofPair : Children → Eval (Keywords × Keywords)
  | .many [key, value] => do
    let value ← ofSchema value
    let key ← ofSchema key
    return (value, key)
  | .fields [key, value] => do
    let value ← guessValue value.1
    let key ← guessValue key.1
    return (value, key)
  | children => noPair children
termination_by structural children => children

def ofSecond : Children → Eval Keywords
  | .many [_, value] => ofSchema value
  | .fields [_, value] => guessValue value.1
  | children => noPair children
termination_by structural children => children

/-- The document schema of the first of several steps with the checks that follow it. -/
def ofSteps : Children → Eval Keywords
  | .absent | .many [] | .fields [] => return []
  | .many (first :: rest) => do
    let keywords ← ofSchema first
    return withChecks keywords rest
  | .fields (entry :: rest) => ofZero (entry :: rest)
  | .one schema => Eval.misuse (.notSubscriptable schema.typeName)
  | .deferred _ => Eval.misuse (.notSubscriptable "function")
termination_by structural children => children

/-- The document schema of the schema under the key zero; named steps after it cannot be told. -/
def ofZero : List (Value × Schema) → Eval Keywords
  | [] => Eval.misuse (.absentKey (.int 0))
  | (key, schema) :: rest => do
    if key == .int 0 then
      let _ ← ofSchema schema
      Eval.misuse (.unhashable "slice")
    else ofZero rest
termination_by structural entries => entries

def ofShape (listing : Listing) : Children → Eval Keywords
  | .fields entries => do
    let properties ← ofFields entries
    return objectOf properties ((entries.filter fun entry => listing.lists entry.2).map (·.1))
  | _ => return .ofType "object"
termination_by structural children => children

/-- The document schema of the parameter for further fields or items, if there is one. -/
def ofRest : List (String × Parameter) → Eval (Option Keywords)
  | [] => return none
  | (key, parameter) :: further =>
    if key == "rest" then ofParameter parameter else ofRest further
termination_by structural parameters => parameters

/-- The document schema of a parameter; null counts as none. -/
def ofParameter : Parameter → Eval (Option Keywords)
  | .value v => do
    if v.isNull then return none
    else
      let keywords ← guessValue v
      return some keywords
  | .schema schema => do
    let keywords ← ofSchema schema
    return some keywords
termination_by structural parameter => parameter

def ofSchemas : List Schema → Eval (List Keywords)
  | [] => return []
  | schema :: rest => do
    let keywords ← ofSchema schema
    let further ← ofSchemas rest
    return keywords :: further
termination_by structural schemas => schemas

def ofFields : List (Value × Schema) → Eval Keywords
  | [] => return []
  | (key, schema) :: rest => do
    let keywords ← ofSchema schema
    let further ← ofFields rest
    return (key, .object keywords) :: further
termination_by structural entries => entries

end

end Projection

end Conform
