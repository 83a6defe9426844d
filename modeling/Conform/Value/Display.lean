import Conform.Numeric.DigitLimit
import Conform.Numeric.Shortest
import Conform.Text.JsonString
import Conform.Value.Basic

/-!
Text of values: the form shown in messages, and JSON documents for the values that have one. A value
that holds an integer beyond the digit limit cannot be written: `Value.isWritable` tells which
values can, and whatever writes a value asks it first.
-/
namespace Conform

namespace Value

def bracketed (opening closing : String) (items : List String) : String :=
  opening ++ ", ".intercalate items ++ closing

/-- Items of a tuple; a lone item is followed by a comma. -/
def parenthesized : List String → String
  | [item] => "(" ++ item ++ ",)"
  | items => bracketed "(" ")" items

def braced (entries : List (String × String)) : String :=
  bracketed "\x7b" "\x7d" (entries.map fun entry => entry.1 ++ ": " ++ entry.2)

mutual

/-- Whether a value can be written: no integer in it has too many digits. -/
def isWritable : Value → Bool
  | .int n => DigitLimit.admits n
  | .list items | .tuple items | .set items | .frozenset items => areWritable items
  | .dict entries | .mapping entries => entriesAreWritable entries
  | _ => true

/-- Whether all of several items can be written. -/
def areWritable : List Value → Bool
  | [] => true
  | item :: rest => isWritable item && areWritable rest

def entriesAreWritable : List (Value × Value) → Bool
  | [] => true
  | (key, item) :: rest => isWritable key && isWritable item && entriesAreWritable rest

end

theorem isWritable_of_isStr {x : Value} (text : x.isStr) : x.isWritable := by
  cases x with
  | str => rfl
  | _ => cases text

theorem areWritable_iff {shown : List Value} : areWritable shown ↔ ∀ v ∈ shown, v.isWritable := by
  induction shown with
  | nil => simp [areWritable]
  | cons v rest ih => simp [areWritable, ih]

theorem entriesAreWritable_iff {entries : List (Value × Value)} :
    entriesAreWritable entries ↔ ∀ entry ∈ entries, entry.1.isWritable ∧ entry.2.isWritable := by
  induction entries with
  | nil => simp [entriesAreWritable]
  | cons entry rest ih => simp [entriesAreWritable, ih, and_assoc]

mutual

def quoted : Value → String
  | .null => "None"
  | .missing => "MISSING"
  | .bool b => if b then "True" else "False"
  | .int n => toString n
  | .float x => x.text .standard
  | .str s => Text.quoted s
  | .bytes bs => Text.quotedBytes bs
  | .list items => bracketed "[" "]" (quotedItems items)
  | .tuple items => parenthesized (quotedItems items)
  | .set items => if items.isEmpty then "set()" else bracketed "\x7b" "\x7d" (quotedItems items)
  | .frozenset items =>
    if items.isEmpty then "frozenset()"
    else "frozenset(" ++ bracketed "\x7b" "\x7d" (quotedItems items) ++ ")"
  | .dict entries => braced (quotedEntries entries)
  | .mapping entries => "mappingproxy(" ++ braced (quotedEntries entries) ++ ")"
  | .object cls _ => "<" ++ cls.name ++ ">"

def quotedItems : List Value → List String
  | [] => []
  | item :: rest => quoted item :: quotedItems rest

def quotedEntries : List (Value × Value) → List (String × String)
  | [] => []
  | (key, item) :: rest => (quoted key, quoted item) :: quotedEntries rest

end

/-- The text of a value inside a message: text itself, a read-only dictionary as the dictionary it
shows, any other value spelt out. -/
def text : Value → String
  | .str s => s
  | .mapping entries => braced (quotedEntries entries)
  | v => v.quoted

def jsonKey? : Value → Option String
  | .null => some "null"
  | .bool b => some (if b then "true" else "false")
  | .int n => some (toString n)
  | .float x => some (x.text .document)
  | .str s => some s
  | _ => none

mutual

def json? : Value → Option String
  | .null => some "null"
  | .bool b => some (if b then "true" else "false")
  | .int n => some (toString n)
  | .float x => some (x.text .document)
  | .str s => some (Text.jsonString s)
  | .list items | .tuple items => (jsonItems? items).map (bracketed "[" "]")
  | .dict entries => (jsonEntries? entries).map braced
  | _ => none

def jsonItems? : List Value → Option (List String)
  | [] => some []
  | item :: rest => match json? item, jsonItems? rest with
    | some text, some texts => some (text :: texts)
    | _, _ => none

def jsonEntries? : List (Value × Value) → Option (List (String × String))
  | [] => some []
  | (key, item) :: rest => match jsonKey? key, json? item, jsonEntries? rest with
    | some key, some text, some texts => some ((Text.jsonString key, text) :: texts)
    | _, _, _ => none

end

/-- The JSON document of a value, or its spelt-out text when it has none. -/
def rendered (v : Value) : String := v.json?.getD v.quoted

end Value

end Conform
