import Conform.Fault

/-!
Reports of a failure: one line per issue, or messages grouped by field.
-/
namespace Conform

/-- The text of a path, of which every segment has to be writable. -/
def Path.write (path : List Value) : Except Misuse String := Value.showing path (format path)

/-- The path of an issue in dotted form; an issue at the root has none. -/
def Issue.dotPath? (issue : Issue) : Except Misuse (Option String) :=
  if issue.path.isEmpty then .ok none else (Path.write issue.path).map some

namespace Failure

/-- The line of one issue: its message, after its path unless it sits at the root. -/
def issueLine (issue : Issue) : Except Misuse Value := do
  match ← issue.dotPath? with
  | some path => Value.showing [issue.message] (.str (path ++ ": " ++ issue.message.text))
  | none => return issue.message

/-- Texts joined by a separator; a value that is no text cannot be joined. -/
def joinTexts (separator : String) (values : List Value) : Except Misuse String := do
  let texts ← values.zipIdx.mapM fun (value, position) =>
    match value with
    | .str s => .ok s
    | other => .error (.joinItem position other.typeName)
  return separator.intercalate texts

def format (failure : Failure) : Except Misuse String := do
  let lines ← failure.issues.mapM issueLine
  joinTexts "\n" lines

def formErrors (failure : Failure) : List Value :=
  (failure.issues.filter (·.path.isEmpty)).map (·.message)

/-- The messages of all other issues by their paths, in order of first appearance. -/
def fieldErrors (failure : Failure) : Except Misuse (Entries String (List Value)) :=
  failure.issues.foldlM (fun found issue => do
    match ← issue.dotPath? with
    | some path => return found.insert path (((found.get? path).getD []) ++ [issue.message])
    | none => return found) []

def dotPaths (failure : Failure) : Except Misuse (List (Option String)) :=
  failure.issues.mapM Issue.dotPath?

/-- The text that spells out the exception which reports the failure. -/
def quoted (failure : Failure) : Except Misuse String :=
  Value.showing [failure.line] ("ValidationError(" ++ failure.line.quoted ++ ")")

end Failure

end Conform
