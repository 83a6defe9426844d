import Conform.Validator.Leaves

/-!
Validators around one other validator: absence and null, defaults, refinements, conversions and
replaced failures; and the conversions and checks that stand alone.
-/
namespace Conform

namespace Validator

def accepting (kind : Kind) (absence : Absence) (inner : Validator) : Validator :=
  described (.accepting absence inner.rule) (wrapping kind inner [])

def optional : Validator → Validator := accepting .optional .missing

/-- Also an absent value; a description of its own tells it from `optional`. -/
def exactOptional : Validator → Validator := accepting .exactOptional .missing

def nullable : Validator → Validator := accepting .nullable .null

def nullish : Validator → Validator := accepting .nullish .either

/-- A value in place of an absent one. -/
def withDefault (inner : Validator) (value : Value) : Validator :=
  described (.withDefault inner.rule value)
    { wrapping .default inner [("default", value)] with default := value }

def fallback (inner : Validator) (value : Value) : Validator :=
  described (.recovering inner.rule value) (wrapping .fallback inner [("fallback", value)])

/-- A value in place of any failure, described as caught. -/
def catching (inner : Validator) (value : Value) : Validator :=
  described (.recovering inner.rule value) (wrapping .catch inner [("default", value)])

def rejecting (kind : Kind) (absence : Absence) (inner : Validator) : Validator :=
  described (.rejecting absence inner.rule) (wrapping kind inner [])

def nonNullable : Validator → Validator := rejecting .nonNullable .null

def nonNullish : Validator → Validator := rejecting .nonNullish .either

def nonOptional : Validator → Validator := rejecting .nonOptional .missing

def refine (inner : Validator) (test : Callable) (message : String) : Validator :=
  described (.refine inner.rule test message) (wrapping .refine inner [])

def transform (inner : Validator) (function : Callable) : Validator :=
  described (.transform inner.rule function "Transform failed") (wrapping .transform inner [])

def preprocess (function : Callable) (inner : Validator) : Validator :=
  described (.preprocess function inner.rule) (wrapping .transform inner [])

/-- A conversion of any input. -/
def convert (function : Callable) : Validator :=
  described (.convert function "Transform failed") (.ofKind .transform)

def overwrite (function : Callable) : Validator :=
  described (.convert function "Overwrite failed") (.ofKind .transform)

def tryConvert (program : List FailStep) : Validator :=
  described (.tryConvert program) (.ofKind .transform)

/-- A conversion on the way in with its inverse for the way out. -/
def bidirectional (inner : Validator) (decode encode : Callable) : Validator :=
  ⟨.transform inner.rule decode "Decode failed", some (wrapping .codec inner []),
    some ⟨encode, inner⟩⟩

def retitled (inner : Validator) (source : MessageSource) : Validator :=
  of (.retitle inner.rule source) inner.metadata

/-- The issues of a validator, reported under a path. -/
def forward (inner : Validator) (path : List Value) : Validator :=
  of (.forward inner.rule path) inner.metadata

def rawCheck (program : List IssueStep) : Validator :=
  described (.rawCheck program) (.ofKind .check)

def rawConvert (program : List IssueStep) : Validator :=
  described (.rawConvert program) (.ofKind .transform)

/-- A test whose failure is reported at each of several paths. -/
def crossCheck (paths : List (List Value)) (test : Callable) (message : String) : Validator :=
  described (.crossCheck paths test message) (.ofKind .check)

def itemTest (quantifier : Quantifier) (test : Callable) (message : String) : Validator :=
  described (.items quantifier test message) (.ofKind .check)

end Validator

end Conform
