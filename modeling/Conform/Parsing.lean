import Conform.Construct
import Conform.Report
import Conform.Validation.Interpreter

/-!
Entry points: validating with any schema, the parse helpers with their configured messages, and the
vendor-neutral result form.
-/
namespace Conform

namespace Schema

def read (schema : Schema) : Eval Validator := Eval.ofConstruction schema.toValidator

def validate (schema : Schema) (x : Value) : Eval Outcome := do
  let v ← schema.read
  v.run x

/-- The outcome of a callback whose ordinary faults are failures. -/
def callGuarded (function : Callable) (x : Value) : Eval Outcome :=
  (SafeForm.plain function x).outcome

/-- The outcome of a schema used as it stands, without being read as a validator: a result form is
used when there is one, and anything else is called. -/
def callDirectly (schema : Schema) (x : Value) : Eval Outcome :=
  match schema with
  | .validator v => v.run x
  | .function f => callGuarded f x
  | .foreign object => match object.result, object.misplacedResult with
    | some result, _ => Eval.perform (result.run x)
    | none, some misplaced => Eval.misuse (.notCallable misplaced.typeName)
    | none, none => callGuarded object.call x
  | .cls c => return match c.construct x with
    | .ok y => .ok y
    | .error message => .err (.plain (if message.isEmpty then Fault.noText else message))
  | .choice _ => return .err (.plain (Misuse.notCallable "types.UnionType").message)
  | other => return .err (.plain (Misuse.notCallable other.typeName).message)

end Schema

namespace Failure

/-- Whether one of several endings is one; an ending of a wrong type before it is refused. -/
def endsInSome (ends : Value → Except Misuse Bool) : List Value → Except Misuse Bool
  | [] => .ok false
  | ending :: rest => do if ← ends ending then return true else endsInSome ends rest

/-- Whether a text ends in a message; several endings may be given as a tuple. -/
def textEndsIn (line : List Char) (message : Value) : Except Misuse Bool :=
  match message with
  | .str s => .ok (s.toList.isSuffixOf line)
  | .tuple endings => endsInSome (fun ending => match ending with
      | .str s => .ok (s.toList.isSuffixOf line)
      | other => .error (.suffixItemType other.typeName)) endings
  | other => .error (.suffixType "str" other.typeName)

/-- Whether bytes end in a message; several endings may be given as a tuple. -/
def bytesEndIn (line : List UInt8) (message : Value) : Except Misuse Bool :=
  match message with
  | .bytes bs => .ok (bs.isSuffixOf line)
  | .tuple endings => endsInSome (fun ending => match ending with
      | .bytes bs => .ok (bs.isSuffixOf line)
      | other => .error (.bytesNeeded other.typeName)) endings
  | other => .error (.suffixType "bytes" other.typeName)

/-- A sequence without so many items at its end; when there are fewer, what is left over is taken
from the end once more. -/
def withoutLast {α : Type} (count : Nat) (items : List α) : List α :=
  if count ≤ items.length then items.take (items.length - count)
  else items.take (2 * items.length - count)

/-- The line with the message at its end replaced. -/
def relined (line before after : Value) : Except Misuse Value :=
  let cut := before.length?.getD 0
  match line with
  | .str s => do
    if ← textEndsIn s.toList before then
      match after with
      | .str t => return .str (String.ofList (withoutLast cut s.toList) ++ t)
      | other => throw (.concatenation "str" other.typeName)
    else return .str s
  | .bytes bs => do
    if ← bytesEndIn bs before then
      match after with
      | .bytes cs => return .bytes (withoutLast cut bs ++ cs)
      | other => throw (.bytesConcatenation other.typeName)
    else return .bytes bs
  | other => .error (.noAttribute other.typeName "endswith")

def localizeIssue (kind : Option String) (issue : Issue) : Eval Issue := do
  match issue.message.unhashable? with
  | some found => Eval.misuse (.unhashable found)
  | none =>
    match (← get).settings.resolve issue.message kind with
    | .nothing => return issue
    | .text message => return issue.retitled (.str message)
    | .computed render => do
      let message ← Eval.perform (render issue)
      return issue.retitled message

def localizeIssues (kind : Option String) : List Issue → Eval (List Issue)
  | [] => return []
  | issue :: rest => do
    let first ← localizeIssue kind issue
    let others ← localizeIssues kind rest
    return first :: others

/-- The failure under the configured messages. When a message changes, the line ends in the new
message of the first issue if it ended in the old one. -/
def localize (kind : Option String) (failure : Failure) : Eval Failure := do
  let first ← localizeIssue kind failure.first
  let others ← localizeIssues kind failure.others
  let same := (first :: others).zip failure.issues |>.all fun pair =>
    pair.1.message == pair.2.message
  if same then return failure
  else
    let line ← Eval.ofConstruction (relined failure.line failure.first.message first.message)
    return ⟨line, first, others⟩

end Failure

namespace Validator

def parseOutcome (v : Validator) (x : Value) : Eval Outcome := do
  match ← v.run x with
  | .ok y => return .ok y
  | .err failure => do
    let localized ← failure.localize (v.metadata.map (·.kind.name))
    return .err localized

def valueOf : Outcome → Eval Value
  | .ok y => return y
  | .err failure => Eval.raise (.invalid failure.raised)

/-- The value, or a raised failure under the configured messages. -/
def parse (v : Validator) (x : Value) : Eval Value := do
  let outcome ← v.parseOutcome x
  valueOf outcome

def lineOf : Outcome → Except Value Value
  | .ok y => .ok y
  | .err failure => .error failure.line

/-- The value or the line of the failure under the configured messages. -/
def safeParse (v : Validator) (x : Value) : Eval (Except Value Value) := do
  let outcome ← v.parseOutcome x
  return lineOf outcome

end Validator

namespace Schema

/-- The value, or a raised failure under the configured messages. -/
def parse (schema : Schema) (x : Value) : Eval Value := do
  let v ← schema.read
  v.parse x

/-- Nothing, or a raised failure under the configured messages. -/
def ensure (schema : Schema) (x : Value) : Eval Unit := do
  let _ ← schema.parse x

/-- The value or the line of the failure under the configured messages. -/
def safeParse (schema : Schema) (x : Value) : Eval (Except Value Value) := do
  let v ← schema.read
  v.safeParse x

def accepts (schema : Schema) (x : Value) : Eval Bool := do
  let outcome ← schema.validate x
  return outcome.isOk

def tryParse (schema : Schema) (x default : Value) : Eval Value := do
  let outcome ← schema.validate x
  return outcome.value?.getD default

def parser (schema : Schema) : Eval CallForm := do
  let v ← schema.read
  return v.parse

/-- A parser bound to one schema that gives the line of a failure. -/
def safeParser (schema : Schema) : Eval (Value → Eval (Except Value Value)) := do
  let v ← schema.read
  return v.safeParse

end Schema

/-- The vendor-neutral result of a validation. -/
inductive StandardResult where
  | value (value : Value)
  | issues (issues : List (Value × List Value))

/-- The vendor-neutral form of an outcome: the message and the path of each issue. -/
def StandardResult.ofOutcome : Outcome → StandardResult
  | .ok y => .value y
  | .err failure => .issues (failure.issues.map fun issue => (issue.message, issue.path))

def Schema.standardValidate (schema : Schema) (x : Value) : Eval StandardResult := do
  let outcome ← schema.callDirectly x
  return .ofOutcome outcome

end Conform
