import Conform.Script

/-!
Context programs: checks and conversions that report any number of issues, or one failure, while
they run. A program is a list of steps on the inspected value; its result is that value or what the
last return step gave.
-/
namespace Conform

/-- A step of a program that collects issues. -/
inductive IssueStep where
  | report (condition : Option Callable) (message path : Value)
  | answer (function : Callable)

/-- A step of a program that keeps the last reported failure. -/
inductive FailStep where
  | fail (condition : Option Callable) (message : Value)
  | answer (function : Callable)

namespace Path

/-- The segments that a path argument stands for: those of a written path, or the items of anything
that can be run through. -/
def ofValue (path : Value) : Except Misuse (List Value) :=
  match path with
  | .str s => match parse s with
    | .ok segments => .ok (segments.map Segment.value)
    | .error error => .error (.badPath error)
  | path => match path.iterate? with
    | some items => .ok items
    | none => .error (.notIterable path.typeName)

end Path

def conditionHolds (condition : Option Callable) (x : Value) : Traced Bool :=
  match condition with
  | none => pure true
  | some test => do
    let answer ← test.run x
    pure answer.truthy

namespace IssueStep

/-- Runs the steps on a value, with the issues so far and the result so far. -/
def runFrom (x : Value) (issues : List Issue) (result : Value) :
    List IssueStep → Traced (List Issue × Value)
  | [] => pure (issues, result)
  | .report condition message path :: rest => do
    if ← conditionHolds condition x then
      match if path.truthy then Path.ofValue path else .ok [] with
      | .ok segments => runFrom x (issues ++ [.located message segments]) result rest
      | .error cause => .misuse cause
    else runFrom x issues result rest
  | .answer function :: rest => do
    let y ← function.run x
    runFrom x issues y rest

/-- Runs the steps on a value. -/
def run (steps : List IssueStep) (x : Value) : Traced (List Issue × Value) := runFrom x [] x steps

end IssueStep

namespace FailStep

/-- Runs the steps on a value, with the failure message so far and the result so far. -/
def runFrom (x : Value) (message : Option Value) (result : Value) :
    List FailStep → Traced (Option Value × Value)
  | [] => pure (message, result)
  | .fail condition text :: rest => do
    if ← conditionHolds condition x then runFrom x (some text) result rest
    else runFrom x message result rest
  | .answer function :: rest => do
    let y ← function.run x
    runFrom x message y rest

/-- Runs the steps on a value. -/
def run (steps : List FailStep) (x : Value) : Traced (Option Value × Value) :=
  runFrom x none x steps

end FailStep

end Conform
