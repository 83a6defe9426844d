import Conform.Kind
import Conform.Rule

/-!
Validators, their descriptions, and everything that can stand where a validator is expected. A
description records the kind of a schema, its parameters, its children and its documentation; it
takes no part in validation.
-/
namespace Conform

/-- What a description says to a human reader. It is passed on as it is given, of whatever type. -/
structure Documentation where
  description : Option Value
  title : Option Value
  examples : Option (List Value)
  brand : Option Value
  deprecated : Option Value
  readonly : Option Value

namespace Documentation

def empty : Documentation := ⟨none, none, none, none, none, none⟩

/-- What a value says in documentation: null says nothing. -/
def said : Value → Option Value
  | .null => none
  | v => some v

/-- The documentation overlaid with a later one: what the later one says wins. -/
def overlay (earlier later : Documentation) : Documentation where
  description := later.description <|> earlier.description
  title := later.title <|> earlier.title
  examples := later.examples <|> earlier.examples
  brand := later.brand <|> earlier.brand
  deprecated := later.deprecated <|> earlier.deprecated
  readonly := later.readonly <|> earlier.readonly

/-- The part of the documentation that a wrapper takes over. -/
def kept (docs : Documentation) : Documentation :=
  { docs with deprecated := none, readonly := none }

end Documentation

mutual

/-- A validator: what it checks, how it describes itself, and for a codec the way back. -/
structure Validator where
  rule : Rule
  metadata : Option Metadata
  codec : Option Codec

/-- The way back of a codec, and the validator it decodes the output of. -/
structure Codec where
  encode : Callable
  schema : Validator

/-- The description of a schema. A missing `default` means that there is none. -/
structure Metadata where
  kind : Kind
  parameters : List (String × Parameter)
  children : Children
  docs : Documentation
  default : Value

/-- A parameter of a schema. -/
inductive Parameter where
  | value (value : Value)
  | schema (schema : Schema)

/-- The child schemas of a description. -/
inductive Children where
  | absent
  | one (schema : Schema)
  | many (schemas : List Schema)
  | fields (entries : List (Value × Schema))
  | deferred (id : Nat)

/-- Anything that can stand where a validator is expected, or is mistaken for one: a `choice`
between bare classes is not read as a validator. -/
inductive Schema where
  | validator (validator : Validator)
  | cls (cls : Class)
  | choice (classes : List Class)
  | null
  | dict (entries : List (Value × Schema))
  | mapping (entries : List (Value × Schema))
  | list (items : List Schema)
  | tuple (items : List Schema)
  | value (value : Value)
  | function (function : Callable)
  | foreign (object : Foreign)

/-- A callable object that is no validator but may have parts of one: a result form, which may turn
out not to be callable, and a description. -/
structure Foreign where
  call : Callable
  result : Option ResultCallable
  misplacedResult : Option Value
  metadata : Option Metadata

end

end Conform
