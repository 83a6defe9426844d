import Conform.Validation.Basic

/-!
The safe forms of constructions, each from the safe forms of its parts.
-/
namespace Conform

def Leaf.accepts : Leaf → Value → Bool
  | .string, x => x.isStr
  | .number, x => match x with
    | .int _ => true
    | .float y => y.magnitude?.isSome
    | _ => false
  | .integer, x => match x with
    | .int _ => true
    | _ => false
  | .boolean, x => match x with
    | .bool _ => true
    | _ => false
  | .null, x => x.isNull
  | .any, _ => true
  | .unknown, _ => true
  | .never, _ => false

def Leaf.message : Leaf → String
  | .string => "Expected string"
  | .number => "Expected number"
  | .integer => "Expected integer"
  | .boolean => "Expected boolean"
  | .null => "Expected null"
  | .any => ""
  | .unknown => ""
  | .never => "Unexpected value"

/-- The name that a failed type check gives to what it expected. -/
def Leaf.expected : Leaf → String
  | .string => "string"
  | .number => "number"
  | .integer => "integer"
  | .boolean => "boolean"
  | .null => "null"
  | .any => "any"
  | .unknown => "unknown"
  | .never => "never"

namespace SafeForm

open Checked

/-- The failure of a value that is no dictionary where an object is expected. -/
def notObject : Failure := .expecting "Expected object" "object"

/-- The failure of a value that is no list or tuple. -/
def notArray : Failure := .expecting "Expected array" "array"

/-- The failure of a value that is no dictionary. -/
def notMap : Failure := .expecting "Expected Map" "map"

def notSet : Failure := .expecting "Expected Set" "set"

def absentField : Failure := .plain "Required"

/-- Lets a value through when a condition holds. -/
def provided (condition : Bool) (failure : Failure) (x : Value) : Checked Value :=
  if condition then pure x else reject failure

def entriesOf (failure : Failure) (x : Value) : Checked (List (Value × Value)) :=
  match x.entries? with
  | some entries => pure entries
  | none => reject failure

def itemsOf (x : Value) : Checked (List Value) :=
  match x.items? with
  | some items => pure items
  | none => reject notArray

def leaf (l : Leaf) : SafeForm := fun x =>
  provided (l.accepts x) (.expecting l.message l.expected) x

def instanceOf (cls : Class) : SafeForm := fun x =>
  provided (x.isInstance cls) (.expecting ("Expected " ++ cls.name) cls.name) x

/-- Exactly one value; the output is the value asked for. -/
def literal (value : Value) : SafeForm := fun x =>
  provided (x.sameAs value) (.plain ("Expected " ++ value.rendered)) value

def oneOf (values : List Value) : SafeForm := fun x =>
  provided (values.any x.sameAs)
    (.plain ("Expected one of: " ++ ", ".intercalate (values.map Value.rendered))) x

def keyName (keys : List String) : SafeForm := fun x =>
  provided (keys.any fun key => x == .str key)
    (.plain ("Expected one of: " ++ ", ".intercalate keys)) x

/-- Whether a length relates to a bound; a value without length and a bound without order fail. -/
def lengthRelates (comparison : Comparison) (bound x : Value) : Bool :=
  match x.length? with
  | some n => (Value.compare? comparison (.int n) bound).getD false
  | none => false

def answer (check : Check) (x : Value) : Traced Bool :=
  match check with
  | .lengthAtLeast bound => pure (lengthRelates .atLeast bound x)
  | .lengthAtMost bound => pure (lengthRelates .atMost bound x)
  | .compare comparison bound => pure ((Value.compare? comparison x bound).getD false)
  | .occurs pattern => pure <| match x with
    | .str s => pattern.occursIn s
    | _ => false
  | .predicate function => do
    let result ← function.run x
    pure result.truthy

def check (test : Check) (message : String) : SafeForm := fun x => do
  let passed ← guarded (.str message) (answer test x)
  provided passed (.plain message) x

def plain (function : Callable) : SafeForm := fun x =>
  guarded (.str Fault.noText) (function.run x)

def resulting (function : ResultCallable) : SafeForm := fun x => do
  let result ← perform (function.run x)
  ofOutcome result

/-- Steps from left to right. -/
def pipe : List SafeForm → SafeForm
  | [], x => pure x
  | step :: rest, x => do
    let y ← step x
    pipe rest y

/-- Absent values pass, all others go to the inner form. -/
def accepting (absence : Absence) (inner : SafeForm) : SafeForm := fun x =>
  if absence.covers x then pure x else inner x

/-- A value in place of an absent one. -/
def withDefault (inner : SafeForm) (value : Value) : SafeForm := fun x =>
  if x.isMissing then pure value else inner x

/-- A value in place of any failure. -/
def recovering (inner : SafeForm) (value : Value) : SafeForm := fun x => do
  match ← attempt (inner x) with
  | .ok y => pure y
  | .error _ => pure value

def absenceMessage : Absence → String
  | .null => "Value cannot be null"
  | .either => "Value cannot be null or undefined"
  | .missing => "Value cannot be undefined"

def rejecting (absence : Absence) (inner : SafeForm) : SafeForm := fun x => do
  let y ← inner x
  provided (!absence.covers y) (.plain (absenceMessage absence)) y

/-- The first form that accepts, or what is given for when none does. -/
def firstMatch (otherwise : Checked Value) : List SafeForm → SafeForm
  | [], _ => otherwise
  | option :: rest, x => do
    match ← attempt (option x) with
    | .ok y => pure y
    | .error _ => firstMatch otherwise rest x

/-- The first of several alternatives. -/
def union (options : List SafeForm) : SafeForm :=
  firstMatch (reject (.plain "Value does not match any type in union")) options

/-- The first of several alternatives for a dictionary. -/
def discriminatedUnion (options : List SafeForm) : SafeForm := fun x => do
  let _ ← entriesOf notObject x
  firstMatch (reject (.plain "Invalid discriminator value")) options x

def discriminantText : Value → String
  | .missing => "undefined"
  | value => value.rendered

/-- Refuses a value that cannot serve as a key or as an item of a set. -/
def requireHashable (y : Value) : Checked Unit :=
  match y.unhashable? with
  | some found => misuse (.unhashable found)
  | none => pure ()

/-- The failure of a dictionary that no alternative accepts: it shows the discriminator. -/
def noVariant (key : Value) (entries : List (Value × Value)) : Checked Value := do
  requireHashable key
  let found := (Entries.get? entries key).getD .missing
  if key.isWritable && found.isWritable then
    reject (.plain ("No matching variant for " ++ key.text ++ "=" ++ discriminantText found))
  else misuse .unwritableInteger

/-- The first of several alternatives for a dictionary. -/
def variant (key : Value) (options : List SafeForm) : SafeForm := fun x => do
  let entries ← entriesOf notObject x
  firstMatch (noVariant key entries) options x

/-- The output of one more member joined to the outputs so far: dictionaries are overlaid, any other
output replaces what came before. -/
def joinOutput (merged out : Value) : Value :=
  match out.entries?, merged with
  | some entries, .dict earlier => .dict (Entries.merge earlier entries)
  | some entries, _ => .dict entries
  | none, _ => out

/-- All members, the outputs joined to those so far. -/
def intersectFrom (x : Value) : List SafeForm → Value → Checked Value
  | [], merged => pure merged
  | member :: rest, merged => do
    let out ← member x
    intersectFrom x rest (joinOutput merged out)

/-- All members, their outputs joined. -/
def intersect (members : List SafeForm) : SafeForm := fun x => intersectFrom x members (.dict [])

def refine (inner : SafeForm) (test : Callable) (message : String) : SafeForm := fun x => do
  let y ← inner x
  let result ← guarded (.str message) (test.run y)
  provided result.truthy (.plain message) y

def transform (inner : SafeForm) (function : Callable) (failure : String) : SafeForm := fun x => do
  let y ← inner x
  guarded (.str failure) (function.run y)

def preprocess (function : Callable) (inner : SafeForm) : SafeForm := fun x => do
  let y ← guarded (.str "Preprocess failed") (function.run x)
  inner y

/-- A conversion of any input. -/
def convert (function : Callable) (failure : String) : SafeForm := fun x =>
  guarded (.str failure) (function.run x)

/-- A conversion that may report a failure; a message without truth reports none. -/
def tryConvert (program : List FailStep) : SafeForm := fun x => do
  let (message, y) ← guarded (.str "Transform failed") (FailStep.run program x)
  match message with
  | some message => if message.truthy then reject (.of message []) else pure y
  | none => pure y

/-- Rejects when issues were reported; the first one's message is the line. -/
def unlessIssues (issues : List Issue) (y : Value) : Checked Value :=
  match issues with
  | [] => pure y
  | first :: others => reject ⟨first.message, first, others⟩

def rawCheck (program : List IssueStep) : SafeForm := fun x => do
  let (issues, _) ← guarded (.str "Validation failed") (IssueStep.run program x)
  unlessIssues issues x

def rawConvert (program : List IssueStep) : SafeForm := fun x => do
  let (issues, y) ← guarded (.str "Transform failed") (IssueStep.run program x)
  unlessIssues issues y

/-- A test whose failure is reported at each of several paths. -/
def crossCheck (paths : List (List Value)) (test : Callable) (message : String) : SafeForm :=
  fun x => do
    let result ← guarded (.str message) (test.run x)
    provided result.truthy (.of (.str message) (paths.map (Issue.located (.str message)))) x

/-- Whether the items pass a test, looking no further than needed. -/
def quantify (quantifier : Quantifier) (test : Callable) : List Value → Traced Bool
  | [] => pure (quantifier == .every)
  | item :: rest => do
    let result ← test.run item
    match quantifier, result.truthy with
    | .every, false => pure false
    | .some, true => pure true
    | _, _ => quantify quantifier test rest

def items (quantifier : Quantifier) (test : Callable) (message : String) : SafeForm := fun x => do
  let items ← itemsOf x
  let passed ← guarded (.str message) (quantify quantifier test items)
  provided passed (.plain message) x

/-- Another message in place of a failure, given or computed from the input; when computing it fails
without text, the line of the failure stays. -/
def retitle (inner : SafeForm) (source : MessageSource) : SafeForm := fun x => do
  match ← attempt (inner x) with
  | .ok y => pure y
  | .error failure => match source with
    | .given message => reject (.of message [])
    | .computed render => do
      let message ← guarded failure.line (render.run x)
      reject (.of message [])

/-- Issues reported under a path; the line stays. -/
def forward (inner : SafeForm) (path : List Value) : SafeForm := fun x =>
  reword (fun failure => some (failure.mapIssues (·.below path))) (inner x)

def eachItem (item : SafeForm) : Nat → List Value → Checked (List Value)
  | _, [] => pure []
  | i, x :: rest => do
    let y ← within (.position i) (item x)
    let ys ← eachItem item (i + 1) rest
    pure (y :: ys)

def eachPosition : Nat → List SafeForm → List Value → Checked (List Value)
  | i, form :: forms, x :: rest => do
    let y ← within (.position i) (form x)
    let ys ← eachPosition (i + 1) forms rest
    pure (y :: ys)
  | _, _, _ => pure []

def array (item : SafeForm) : SafeForm := fun x => do
  let items ← itemsOf x
  let out ← eachItem item 0 items
  pure (.list out)

def wrongLength (qualifier : String) (needed given : Nat) : Failure :=
  .plain ("Expected " ++ qualifier ++ toString needed ++ " items, got " ++ toString given)

def tuple (forms : List SafeForm) : SafeForm := fun x => do
  let items ← itemsOf x
  if items.length = forms.length then
    let out ← eachPosition 0 forms items
    pure (.list out)
  else reject (wrongLength "" forms.length items.length)

/-- A list that begins with these positions; what follows is dropped. -/
def looseTuple (forms : List SafeForm) : SafeForm := fun x => do
  let items ← itemsOf x
  if items.length < forms.length then
    reject (wrongLength "at least " forms.length items.length)
  else
    let out ← eachPosition 0 forms items
    pure (.list out)

/-- A list that begins with these positions, every further item passing `rest`. -/
def tupleWithRest (forms : List SafeForm) (rest : SafeForm) : SafeForm := fun x => do
  let items ← itemsOf x
  if items.length < forms.length then
    reject (wrongLength "at least " forms.length items.length)
  else
    let out ← eachPosition 0 forms items
    let further ← eachItem rest forms.length (items.drop forms.length)
    pure (.list (out ++ further))

/-- Every declared field of a dictionary in order, an absent one as missing; `store` puts an output
under its key. -/
def eachField (store : List (Value × Value) → Value → Value → List (Value × Value))
    (entries : List (Value × Value)) :
    List (Value × SafeForm) → List (Value × Value) → Checked (List (Value × Value))
  | [], out => pure out
  | (key, form) :: rest, out => do
    let y ← within (.key key) (form ((Entries.get? entries key).getD .missing))
    eachField store entries rest (store out key y)

/-- Puts an output under its key unless it is missing. -/
def storePresent (out : List (Value × Value)) (key y : Value) : List (Value × Value) :=
  if y.isMissing then out else Entries.insert out key y

/-- Puts an output under its key, or takes the key away when it is missing. -/
def storeOrErase (out : List (Value × Value)) (key y : Value) : List (Value × Value) :=
  if y.isMissing then Entries.erase out key else Entries.insert out key y

/-- Named fields; other keys are dropped. -/
def object (fields : List (Value × SafeForm)) : SafeForm := fun x => do
  let entries ← entriesOf notObject x
  let out ← eachField storePresent entries fields []
  pure (.dict out)

/-- Named fields; other keys are kept. -/
def looseObject (fields : List (Value × SafeForm)) : SafeForm := fun x => do
  let entries ← entriesOf notObject x
  let out ← eachField storeOrErase entries fields entries
  pure (.dict out)

def eachRest (declared : List Value) (rest : SafeForm) :
    List (Value × Value) → List (Value × Value) → Checked (List (Value × Value))
  | [], out => pure out
  | (key, item) :: further, out =>
    if declared.any (· == key) then eachRest declared rest further out
    else do
      let y ← within (.key key) (rest item)
      eachRest declared rest further (Entries.insert out key y)

/-- Named fields; the values of other keys pass `rest`. -/
def objectWithRest (fields : List (Value × SafeForm)) (rest : SafeForm) : SafeForm := fun x => do
  let entries ← entriesOf notObject x
  let out ← eachField storePresent entries fields []
  let all ← eachRest (fields.map (·.1)) rest entries out
  pure (.dict all)

/-- The output of the inner form next to the entries of the input. -/
def passthrough (inner : SafeForm) : SafeForm := fun x => do
  let entries ← entriesOf notObject x
  let out ← inner x
  match out.entries? with
  | some further => pure (.dict (Entries.merge entries further))
  | none => misuse (.notMapping out.typeName)

/-- The output of the inner form when it accepts a dictionary, else the dictionary itself. -/
def lenient (inner : SafeForm) : SafeForm := fun x => do
  let _ ← entriesOf notObject x
  recovering inner x x

/-- The first key among declared and present ones whose value is missing. -/
def firstAbsent? (declared : List Value) (out : List (Value × Value)) : Option Value :=
  (declared.find? fun key => ((Entries.get? out key).getD .missing).isMissing).orElse fun _ =>
    (out.find? fun entry => entry.2.isMissing).map (·.1)

/-- The output of the inner form, in which no declared field may be absent. -/
def required (declared : List Value) (inner : SafeForm) : SafeForm := fun x => do
  let _ ← entriesOf notObject x
  let y ← inner x
  let out ← entriesOf notObject y
  match firstAbsent? declared out with
  | some key => report (absentField.placed? (.key key))
  | none => pure y

/-- The failure of a key of a record: its issues lie under the key and say that it is invalid. -/
def invalidKey (key : Value) (failure : Failure) : Failure :=
  let mark (message : Value) : Value := .str ("Invalid key: " ++ message.text)
  { failure.mapIssues fun issue => { issue.below [key] with message := mark issue.message } with
    line := mark failure.line }

/-- The failure of a key of a record, if the line and all messages can be written. -/
def invalidKey? (key : Value) (failure : Failure) : Option Failure :=
  if Value.areWritable (failure.line :: failure.issues.map (·.message)) then
    some (invalidKey key failure)
  else none

/-- Every entry of a dictionary, each key before its value; given are the words for the failure of a
key and the place of a value. -/
def eachEntry (onKey : Value → Failure → Option Failure) (onValue : Value → Place)
    (keyForm valueForm : SafeForm) :
    List (Value × Value) → List (Value × Value) → Checked (List (Value × Value))
  | [], out => pure out
  | (key, item) :: rest, out => do
    let k ← reword (onKey key) (keyForm key)
    let y ← within (onValue key) (valueForm item)
    requireHashable k
    eachEntry onKey onValue keyForm valueForm rest (Entries.insert out k y)

/-- A dictionary whose keys and values pass. -/
def record (keyForm valueForm : SafeForm) : SafeForm := fun x => do
  let entries ← entriesOf notObject x
  let out ← eachEntry invalidKey? .recordEntry keyForm valueForm entries []
  pure (.dict out)

/-- A dictionary of any keys whose keys and values pass. -/
def map (keyForm valueForm : SafeForm) : SafeForm := fun x => do
  let entries ← entriesOf notMap x
  let out ←
    eachEntry (fun key => Failure.placed? (.mapKey key)) .mapEntry keyForm valueForm entries []
  pure (.dict out)

/-- Every item of a set, reported by its position; an output that cannot be an item ends the run. -/
def eachElement (item : SafeForm) : Nat → List Value → Checked (List Value)
  | _, [] => pure []
  | i, x :: rest => do
    let y ← within (.element i) (item x)
    requireHashable y
    let ys ← eachElement item (i + 1) rest
    pure (y :: ys)

def set (item : SafeForm) : SafeForm := fun x => do
  match x.elements? with
  | some elements => do
    let out ← eachElement item 0 elements
    pure (.set (Value.distinct out))
  | none => reject notSet

end SafeForm

end Conform
