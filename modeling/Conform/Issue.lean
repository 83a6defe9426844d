import Conform.Path
import Conform.Value.Equality

/-!
Failures: an issue says what is wrong at a path, and a failure joins one or more issues under a
single line. Failures move outward by `Failure.within`, one path segment at a time.
-/
namespace Conform

/-- One thing that is wrong, with the path from the root to it. The message is text unless a
callback supplied another value. -/
structure Issue where
  message : Value
  path : List Value
  input : Value
  expected : Option String
  received : Option String

namespace Issue

/-- An issue at the root that says nothing but its message. -/
def bare (message : Value) : Issue := ⟨message, [], .missing, none, none⟩

def located (message : Value) (path : List Value) : Issue := ⟨message, path, .missing, none, none⟩

/-- The issue with a path put in front of its own. -/
def below (issue : Issue) (outer : List Value) : Issue := { issue with path := outer ++ issue.path }

/-- The issue with another message; an equal one changes nothing. -/
def retitled (issue : Issue) (message : Value) : Issue :=
  if message.eq issue.message then issue else { issue with message := message }

end Issue

/-- Where in a value a failure lies: the segment of its path, the label before its line, and the
values whose text the label contains. -/
structure Place where
  segment : Value
  label : String
  shown : List Value

namespace Place

def position (i : Nat) : Place := ⟨.int i, "[" ++ toString i ++ "]", []⟩

def element (i : Nat) : Place := ⟨.int i, "Set[" ++ toString i ++ "]", []⟩

def key (key : Value) : Place := ⟨key, key.text, [key]⟩

def recordEntry (key : Value) : Place := ⟨key, "[" ++ key.text ++ "]", [key]⟩

def mapKey (key : Value) : Place := ⟨key, "Map key", []⟩

def mapEntry (key : Value) : Place := ⟨key, "Map[" ++ key.text ++ "]", [key]⟩

end Place

/-- A failure: its line and its issues, of which there is at least one. -/
structure Failure where
  line : Value
  first : Issue
  others : List Issue

namespace Failure

def issues (failure : Failure) : List Issue := failure.first :: failure.others

/-- A failure with the given issues; without any, one is derived from the line. -/
def of (line : Value) : List Issue → Failure
  | [] => ⟨line, .bare line, []⟩
  | first :: others => ⟨line, first, others⟩

def plain (message : String) : Failure := ⟨.str message, .bare (.str message), []⟩

def expecting (message expected : String) : Failure :=
  ⟨.str message, ⟨.str message, [], .missing, some expected, none⟩, []⟩

def mapIssues (change : Issue → Issue) (failure : Failure) : Failure :=
  ⟨failure.line, change failure.first, failure.others.map change⟩

/-- The failure seen from one level further out: the label is put before the line and the segment
before every path. -/
def within (segment : Value) (label : String) (failure : Failure) : Failure :=
  { failure.mapIssues (·.below [segment]) with line := .str (label ++ ": " ++ failure.line.text) }

/-- The failure as it is reported from a place, if its line and what the label shows can be
written. -/
def placed? (place : Place) (failure : Failure) : Option Failure :=
  if Value.areWritable (failure.line :: place.shown) then
    some (failure.within place.segment place.label)
  else none

/-- The failure that an exception with this line and these issues reports: without a line, the only
issue's message or the number of issues stands in. -/
def raised (failure : Failure) : Failure :=
  match failure.line, failure.others with
  | .null, [] => { failure with line := failure.first.message }
  | .null, others =>
    { failure with line := .str (toString (others.length + 1) ++ " validation issues") }
  | _, _ => failure

/-- The failure of an exception built from an optional message and optional issues. -/
def ofException (message : Option String) (issues : List Issue) : Failure :=
  match issues with
  | [] =>
    let text := match message with
      | some m => if m.isEmpty then "Validation failed" else m
      | none => "Validation failed"
    ⟨.str (message.getD text), .bare (.str text), []⟩
  | first :: others => raised ⟨message.elim .null .str, first, others⟩

end Failure

/-- The result of a validation. -/
inductive Outcome where
  | ok (value : Value)
  | err (failure : Failure)

namespace Outcome

def isOk : Outcome → Bool
  | .ok _ => true
  | .err _ => false

def value? : Outcome → Option Value
  | .ok value => some value
  | .err _ => none

end Outcome

end Conform
