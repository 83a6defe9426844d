import Conform.Context
import Conform.Pattern.Reader
import Conform.Pattern.Search

/-!
What a validator checks, as data. A rule holds everything that decides a validation and nothing that
only describes it.
-/
namespace Conform

/-- The parameterless type checks. -/
inductive Leaf where
  | string | number | integer | boolean | null | any | unknown | never
  deriving DecidableEq

/-- The values that a wrapper treats as absent. -/
inductive Absence where
  | missing | null | either
  deriving DecidableEq

/-- Whether a value counts as absent. -/
def Absence.covers : Absence → Value → Bool
  | .missing, x => x.isMissing
  | .null, x => x.isNull
  | .either, x => x.isNull || x.isMissing

/-- A test of a value that leaves it as it is. -/
inductive Check where
  | lengthAtLeast (bound : Value)
  | lengthAtMost (bound : Value)
  | compare (comparison : Comparison) (bound : Value)
  | occurs (pattern : Pattern)
  | predicate (test : Callable)

/-- Where the message of a replaced failure comes from: it is given, or computed from the input. -/
inductive MessageSource where
  | given (message : Value)
  | computed (render : Callable)

/-- Which items of a sequence have to pass a test. -/
inductive Quantifier where
  | every | some
  deriving DecidableEq

/-- What a validator checks. A `lazy` rule stands for a schema that is built on first use. -/
inductive Rule where
  | leaf (leaf : Leaf)
  | instanceOf (cls : Class)
  | literal (value : Value)
  | oneOf (values : List Value)
  | keyName (keys : List String)
  | check (check : Check) (message : String)
  | plain (function : Callable)
  | resulting (function : ResultCallable)
  | paired (function : Callable) (result : ResultCallable)
  | pipe (steps : List Rule)
  | accepting (absence : Absence) (inner : Rule)
  | withDefault (inner : Rule) (value : Value)
  | recovering (inner : Rule) (value : Value)
  | rejecting (absence : Absence) (inner : Rule)
  | union (options : List Rule)
  | discriminatedUnion (options : List Rule)
  | variant (key : Value) (options : List Rule)
  | intersect (members : List Rule)
  | refine (inner : Rule) (test : Callable) (message : String)
  | transform (inner : Rule) (function : Callable) (failure : String)
  | preprocess (function : Callable) (inner : Rule)
  | convert (function : Callable) (failure : String)
  | tryConvert (program : List FailStep)
  | rawCheck (program : List IssueStep)
  | rawConvert (program : List IssueStep)
  | crossCheck (paths : List (List Value)) (test : Callable) (message : String)
  | items (quantifier : Quantifier) (test : Callable) (message : String)
  | retitle (inner : Rule) (source : MessageSource)
  | forward (inner : Rule) (path : List Value)
  | array (item : Rule)
  | tuple (items : List Rule)
  | looseTuple (items : List Rule)
  | tupleWithRest (items : List Rule) (rest : Rule)
  | object (fields : List (Value × Rule))
  | looseObject (fields : List (Value × Rule))
  | objectWithRest (fields : List (Value × Rule)) (rest : Rule)
  | passthrough (inner : Rule)
  | lenient (inner : Rule)
  | required (declared : List Value) (inner : Rule)
  | record (key value : Rule)
  | map (key value : Rule)
  | set (item : Rule)
  | lazy (id : Nat)

end Conform
