import Conform.Issue

/-!
Faults: what stops an evaluation instead of giving a result. Validation failures and ordinary faults
can be caught; requests to leave the program cannot. `Misuse.message` words every fault that the
library raises of its own accord.
-/
namespace Conform

/-- The kind of an ordinary fault. -/
inductive FaultKind where
  | general | value | type | runtime | key | lookup | index | member | zeroDivision | overflow
  | recursion
  deriving DecidableEq

/-- The kind of a request to leave the program. -/
inductive ExitKind where
  | interrupt | exit
  deriving DecidableEq

/-- A misuse of the library, or a value that an operation cannot take. -/
inductive Misuse where
  | notConvertible (typeName : String)
  | emptyListSchema
  | nothingGiven (constructor : String) (needed : String)
  | shapeNotMapping (typeName : String)
  | noShape (typeName : String)
  | notObjectSchema
  | unknownKind (kind : Value)
  | unknownDraft (draft : String)
  | badPath (error : PathError)
  | badPattern (pattern : String)
  | unhashable (typeName : String)
  | notIterable (typeName : String)
  | notMapping (typeName : String)
  | notCallable (typeName : String)
  | notSubscriptable (typeName : String)
  | missingArgument (function parameter : String)
  | noAttribute (typeName name : String)
  | noClassAttribute (cls name : String)
  | unexpectedArgument (function name : String)
  | cannotUnpack (typeName : String)
  | tooFewToUnpack (needed given : Nat)
  | tooManyToUnpack (needed : Nat)
  | absentKey (key : Value)
  | joinItem (position : Nat) (typeName : String)
  | suffixType (wanted typeName : String)
  | suffixItemType (typeName : String)
  | bytesNeeded (typeName : String)
  | concatenation (left right : String)
  | bytesConcatenation (right : String)
  | operands (operator left right : String)
  | noOrder (operator left right : String)
  | argument (function typeName : String)
  | notANumber (text : String)
  | tooManyDigits (digits : Nat)
  | unwritableInteger
  | divisionByZero
  | tooLargeForFloat
  | tooDeep
  | noOpenContext
  | noFirstOption

namespace Misuse

def kind : Misuse → FaultKind
  | .emptyListSchema | .nothingGiven _ _ | .unknownKind _ | .unknownDraft _ | .badPath _
  | .badPattern _ | .tooFewToUnpack _ _ | .tooManyToUnpack _ | .notANumber _ | .tooManyDigits _
  | .unwritableInteger => .value
  | .noAttribute _ _ | .noClassAttribute _ _ => .member
  | .absentKey _ => .key
  | .divisionByZero => .zeroDivision
  | .tooLargeForFloat => .overflow
  | .tooDeep => .recursion
  | .noOpenContext | .noFirstOption => .index
  | _ => .type

private def inApostrophes (name : String) : String := "'" ++ name ++ "'"

def message : Misuse → String
  | .notConvertible t => "Cannot convert " ++ t ++ " to validator"
  | .emptyListSchema => "Empty list cannot be converted to validator"
  | .nothingGiven constructor needed => constructor ++ "() requires " ++ needed
  | .shapeNotMapping t => "Object shape must be a mapping, got " ++ t
  | .noShape t => "Expected an object shape or object schema, got " ++ t
  | .notObjectSchema => "Schema must be an object schema"
  | .unknownKind kind => "Unknown schema kind: " ++ kind.quoted
  | .unknownDraft draft => "Unknown JSON Schema draft: " ++ draft
  | .badPath error => error.message
  | .badPattern pattern => "Invalid pattern: " ++ pattern
  | .unhashable t => "unhashable type: " ++ inApostrophes t
  | .notIterable t => inApostrophes t ++ " object is not iterable"
  | .notMapping t => inApostrophes t ++ " object is not a mapping"
  | .notCallable t => inApostrophes t ++ " object is not callable"
  | .notSubscriptable t => inApostrophes t ++ " object is not subscriptable"
  | .missingArgument function parameter =>
    function ++ "() missing 1 required positional argument: " ++ inApostrophes parameter
  | .noAttribute t name => inApostrophes t ++ " object has no attribute " ++ Text.quoted name
  | .noClassAttribute c name =>
    "type object " ++ inApostrophes c ++ " has no attribute " ++ inApostrophes name
  | .unexpectedArgument function name =>
    function ++ "() got an unexpected keyword argument " ++ inApostrophes name
  | .cannotUnpack t => "cannot unpack non-iterable " ++ t ++ " object"
  | .tooFewToUnpack needed given =>
    "not enough values to unpack (expected " ++ toString needed ++ ", got " ++ toString given ++ ")"
  | .tooManyToUnpack needed => "too many values to unpack (expected " ++ toString needed ++ ")"
  | .absentKey key => key.quoted
  | .joinItem position t =>
    "sequence item " ++ toString position ++ ": expected str instance, " ++ t ++ " found"
  | .suffixType wanted t =>
    "endswith first arg must be " ++ wanted ++ " or a tuple of " ++ wanted ++ ", not " ++ t
  | .suffixItemType t => "tuple for endswith must only contain str, not " ++ t
  | .bytesNeeded t => "a bytes-like object is required, not " ++ inApostrophes t
  | .concatenation left right =>
    "can only concatenate " ++ left ++ " (not " ++ Text.quoted right ++ ") to " ++ left
  | .bytesConcatenation right => "can't concat " ++ right ++ " to bytes"
  | .operands operator left right =>
    "unsupported operand type(s) for " ++ operator ++ ": " ++ inApostrophes left ++ " and "
      ++ inApostrophes right
  | .noOrder operator left right =>
    inApostrophes operator ++ " not supported between instances of " ++
      inApostrophes left ++ " and "
      ++ inApostrophes right
  | .argument function t => function ++ ": cannot take " ++ t
  | .notANumber text => "int: not a number: " ++ text
  | .tooManyDigits digits => DigitLimit.readingMessage digits
  | .unwritableInteger => DigitLimit.writingMessage
  | .divisionByZero => "division by zero"
  | .tooLargeForFloat => "int too large to convert to float"
  | .tooDeep => "maximum recursion depth exceeded"
  | .noOpenContext => "pop from empty list"
  | .noFirstOption => "tuple index out of range"

end Misuse

/-- What is made of the texts of several values, all of which have to be writable. -/
def Value.showing {α : Type} (shown : List Value) (made : α) : Except Misuse α :=
  if areWritable shown then .ok made else .error .unwritableInteger

/-- What stops an evaluation. -/
inductive Fault where
  | invalid (failure : Failure)
  | misuse (cause : Misuse)
  | ordinary (kind : FaultKind) (text : String)
  | leaving (kind : ExitKind) (text : String)

namespace Fault

def text : Fault → String
  | .invalid failure => failure.line.text
  | .misuse cause => cause.message
  | .ordinary _ text | .leaving _ text => text

/-- An ordinary fault with an optional message; a fault about a key spells the key out. -/
def withMessage (kind : FaultKind) (message : Option String) : Fault :=
  match message with
  | none => .ordinary kind ""
  | some m => .ordinary kind (if kind = .key then Text.quoted m else m)

/-- The message of a fault without text, where nothing better is known. -/
def noText : String := "Unknown error"

/-- The message of a fault; an ordinary fault without text takes the default. -/
def messageOr (fault : Fault) (default : Value) : Value :=
  match fault with
  | .invalid failure => failure.line
  | other => if other.text.isEmpty then default else .str other.text

/-- Whether a fault has a text: the one about an absent key spells the key out. -/
def hasText : Fault → Bool
  | .misuse (.absentKey key) => key.isWritable
  | _ => true

/-- The failure that a fault is reported as when it is caught. There is none for a request to leave
the program, which passes through every handler, nor for a fault whose text cannot be written. -/
def caught? (fault : Fault) (default : Value) : Option Failure :=
  match fault with
  | .invalid failure => some failure
  | .leaving _ _ => none
  | other => if other.hasText then some (.of (other.messageOr default) []) else none

/-- The fault that leaves a handler which could not report one: writing down a fault without text is
itself refused. -/
def passed (fault : Fault) : Fault := if fault.hasText then fault else .misuse .unwritableInteger

end Fault

end Conform
