import Conform.Validator.Description

/-!
Validators without parts: type checks, exact values and tests.
-/
namespace Conform

def Leaf.kind : Leaf → Kind
  | .string => .string
  | .number => .number
  | .integer => .integer
  | .boolean => .boolean
  | .null => .null
  | .any => .any
  | .unknown => .unknown
  | .never => .never

namespace Validator

def leaf (l : Leaf) : Validator := described (.leaf l) (.ofKind l.kind)

def instanceOf (cls : Class) : Validator :=
  described (.instanceOf cls) (.withParameters .instanceOf [("class", .str cls.name)])

/-- The validator of a class: a type check where there is one, else its instances. -/
def ofClass (cls : Class) : Validator :=
  match cls with
  | .str => leaf .string
  | .int => leaf .integer
  | .float => leaf .number
  | .bool => leaf .boolean
  | .null => leaf .null
  | .any => leaf .any
  | cls => instanceOf cls

def literal (value : Value) : Validator :=
  described (.literal value) (.withParameters .literal [("value", value)])

def oneOf (values : List Value) : Except Misuse Validator :=
  if values.isEmpty then .error (.nothingGiven "enum_" "at least one value")
  else Value.showing values <|
    described (.oneOf values) (.withParameters .enum [("values", .list values)])

def test (check : Check) (message : String) (parameters : List (String × Value)) : Validator :=
  described (.check check message) (.withParameters .check parameters)

def minLength (bound : Value) : Validator :=
  test (.lengthAtLeast bound) ("Must be at least " ++ bound.text ++ " characters")
    [("minLength", bound)]

def maxLength (bound : Value) : Validator :=
  test (.lengthAtMost bound) ("Must be at most " ++ bound.text ++ " characters")
    [("maxLength", bound)]

def nonempty : Validator := test (.lengthAtLeast (.int 1)) "Required" [("minLength", .int 1)]

def minItems (bound : Value) : Validator :=
  test (.lengthAtLeast bound) ("Must have at least " ++ bound.text ++ " items")
    [("minItems", bound)]

def maxItems (bound : Value) : Validator :=
  test (.lengthAtMost bound) ("Must have at most " ++ bound.text ++ " items") [("maxItems", bound)]

def matching (text : String) : Except Misuse Validator :=
  match Pattern.read? text with
  | some pattern =>
    .ok (test (.occurs pattern) ("Must match pattern: " ++ text) [("pattern", .str text)])
  | none => .error (.badPattern text)

def atLeast (bound : Value) : Validator :=
  test (.compare .atLeast bound) ("Must be >= " ++ bound.text) [("minimum", bound)]

def greater (bound : Value) : Validator :=
  test (.compare .greater bound) ("Must be > " ++ bound.text) [("exclusiveMinimum", bound)]

def atMost (bound : Value) : Validator :=
  test (.compare .atMost bound) ("Must be <= " ++ bound.text) [("maximum", bound)]

def less (bound : Value) : Validator :=
  test (.compare .less bound) ("Must be < " ++ bound.text) [("exclusiveMaximum", bound)]

def predicate (function : Callable) (message : String) : Validator :=
  test (.predicate function) message []

def defaultMessage : String := "Validation failed"

end Validator

end Conform
