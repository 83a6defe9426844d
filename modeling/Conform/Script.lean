import Conform.Callable
import Conform.Value.Order

/-!
A small language of one-argument functions: enough to look into values, build new ones, log and
raise. A script means the callback `Script.callable`.
-/
namespace Conform

/-- A one-argument function. -/
inductive Script where
  | identity
  | const (value : Value)
  | raise (fault : Fault)
  | trace (label : String) (body : Script)
  | chain (steps : List Script)
  | named (name : String) (body : Script)
  | branch (condition accepted rejected : Script)
  | negate (body : Script)
  | equals (value : Value)
  | greater (bound : Value)
  | less (bound : Value)
  | reciprocalPositive
  | add (value : Value)
  | get (key : Value)
  | fieldsEqual (first second : Value)
  | set (key value : Value)
  | drop (key : Value)
  | wrap
  | wrapTuple
  | toInt
  | toText
  | withText (front : String)
  | truth
  | length
  | upper
  | lower
  | strip
  | typeName

namespace Script

/-- Refuses an argument that a function cannot take. -/
def refuse {α : Type} (function : String) (x : Value) : Traced α :=
  .misuse (.argument function x.typeName)

def entriesOf (function : String) (x : Value) : Traced (List (Value × Value)) :=
  match x.entries? with
  | some entries => pure entries
  | none => refuse function x

def requireKey (key : Value) : Traced Unit :=
  match key.unhashable? with
  | some found => .misuse (.unhashable found)
  | none => pure ()

def field (key x : Value) : Traced Value := do
  let entries ← entriesOf "get" x
  requireKey key
  match Entries.get? entries key with
  | some value => pure value
  | none => .misuse (.absentKey key)

/-- The refusal of an order question. A read-only dictionary as bound asks the question the other
way round, as the dictionary that it shows. -/
def noOrder (comparison : Comparison) (bound x : Value) : Misuse :=
  match bound with
  | .mapping _ => .noOrder comparison.reversed.operator "dict" x.typeName
  | bound => .noOrder comparison.operator x.typeName bound.typeName

/-- An order question about a numeric argument. -/
def compareTo (function : String) (comparison : Comparison) (bound x : Value) : Traced Value :=
  if x.isNumeric then
    match x.compare? comparison bound with
    | some answer => pure (.bool answer)
    | none => .misuse (noOrder comparison bound x)
  else refuse function x

/-- Whether one divided by an integer is above zero: a quotient of `2 ^ (-1075)` or less rounds to
zero. -/
def reciprocalPositiveOf (n : Int) : Traced Value :=
  if n = 0 then .misuse .divisionByZero else pure (.bool (decide (0 < n ∧ n < Nat.pow 2 1075)))

/-- Whether one divided by the argument is above zero. -/
def reciprocal (x : Value) : Traced Value :=
  match x with
  | .bool b => reciprocalPositiveOf (if b then 1 else 0)
  | .int n => reciprocalPositiveOf n
  | .float y => match y with
    | .finite _ 0 => .misuse .divisionByZero
    | .finite negative _ => pure (.bool (!negative))
    | _ => pure (.bool false)
  | _ => refuse "recip_pos" x

/-- A floating-point number that an operation made; a not-a-number is an item of its own each
time. -/
def newFloat (x : Binary64) : Traced Value :=
  match x with
  | .nan _ => do
    let tag ← Traced.identity
    pure (.float (.nan tag))
  | x => pure (.float x)

def addTo (value x : Value) : Traced Value :=
  match x, value with
  | .int n, .int m => pure (.int (n + m))
  | .int n, .bool b => pure (.int (n + if b then 1 else 0))
  | .int n, .float y => match Binary64.ofInt? n with
    | some z => newFloat (z.add y)
    | none => .misuse .tooLargeForFloat
  | .int _, other => .misuse (.operands "+" "int" other.typeName)
  | x, _ => refuse "add" x

def readInt (s : String) : Except Misuse Int :=
  let signed := s.toList.head? == some '-'
  let digits := if signed then s.toList.drop 1 else s.toList
  if digits.isEmpty || !digits.all Char.isDigit then .error (.notANumber s)
  else match DigitLimit.read digits with
    | .ok n => .ok (if signed then -(n : Int) else n)
    | .error count => .error (.tooManyDigits count)

/-- The integer that the argument stands for or spells. -/
def intOf (x : Value) : Traced Value :=
  match x with
  | .str s => match readInt s with
    | .ok n => pure (.int n)
    | .error cause => .misuse cause
  | .int n => pure (.int n)
  | .bool b => pure (.int (if b then 1 else 0))
  | _ => refuse "int" x

def textOf (function : String) (x : Value) : Traced String :=
  match x with
  | .int n => if DigitLimit.admits n then pure x.text else .misuse .unwritableInteger
  | .null | .str _ | .float _ | .bool _ => pure x.text
  | _ => refuse function x

def onText (function : String) (change : List Char → List Char) (x : Value) : Traced Value :=
  match x with
  | .str s => pure (.str (String.ofList (change s.toList)))
  | _ => refuse function x

def stripSpaces (s : List Char) : List Char :=
  ((s.dropWhile (· == ' ')).reverse.dropWhile (· == ' ')).reverse

mutual

/-- What a script does to its argument. -/
def run : Script → Value → Traced Value
  | .identity, x => pure x
  | .const value, _ => pure value
  | .raise fault, _ => .raise fault
  | .trace label body, x => do
    Traced.log ⟨label, x⟩
    run body x
  | .chain steps, x => runAll steps x
  | .named _ body, x => run body x
  | .branch condition accepted rejected, x => do
    let answer ← run condition x
    if answer.truthy then run accepted x else run rejected x
  | .negate body, x => do
    let answer ← run body x
    pure (.bool !answer.truthy)
  | .equals value, x => pure (.bool (x.eq value))
  | .greater bound, x => compareTo "gt" .greater bound x
  | .less bound, x => compareTo "lt" .less bound x
  | .reciprocalPositive, x => reciprocal x
  | .add value, x => addTo value x
  | .get key, x => field key x
  | .fieldsEqual first second, x => do
    let a ← field first x
    let b ← field second x
    pure (.bool (a.eq b))
  | .set key value, x => do
    let entries ← entriesOf "set" x
    requireKey key
    pure (.dict (Entries.insert entries key value))
  | .drop key, x => do
    let entries ← entriesOf "drop" x
    requireKey key
    pure (.dict (Entries.erase entries key))
  | .wrap, x => pure (.list [x])
  | .wrapTuple, x => pure (.tuple [x])
  | .toInt, x => intOf x
  | .toText, x => do
    let text ← textOf "str" x
    pure (.str text)
  | .withText front, x => do
    let text ← textOf "prefix" x
    pure (.str (front ++ text))
  | .truth, x => pure (.bool x.truthy)
  | .length, x => match x.length? with
    | some n => pure (.int n)
    | none => refuse "len" x
  | .upper, x => onText "upper" (·.map Char.toUpper) x
  | .lower, x => onText "lower" (·.map Char.toLower) x
  | .strip, x => onText "strip" stripSpaces x
  | .typeName, x => pure (.str x.typeName)
termination_by structural script => script

def runAll : List Script → Value → Traced Value
  | [], x => pure x
  | step :: rest, x => do
    let y ← run step x
    runAll rest y
termination_by structural steps => steps

end

def name : Script → String
  | .named name _ => name
  | _ => "fn"

/-- The callback that a script means. -/
def callable (script : Script) : Callable := ⟨script.name, script.run⟩

end Script

/-- A test with what follows from it: a function that reports failures as results. -/
structure ResultScript where
  test : Script
  accepted : Script
  line : String
  issues : List Issue

def ResultScript.callable (script : ResultScript) : ResultCallable :=
  ⟨fun x => do
    let answer ← script.test.run x
    if answer.truthy then
      let y ← script.accepted.run x
      pure (.ok y)
    else pure (.err (.of (.str script.line) script.issues))⟩

end Conform
