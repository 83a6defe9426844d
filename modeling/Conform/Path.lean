import Conform.Numeric.DigitLimit
import Conform.Value.Display

/-!
Paths into nested values and their text: keys joined by dots, positions in brackets. `Path.parse`
reads a text, and `Path.format` writes paths of arbitrary segments.
-/
namespace Conform

/-- A step of a written path: a key of a dictionary or a position in a sequence. -/
inductive Segment where
  | key (name : String)
  | index (position : Int)
  deriving DecidableEq

/-- Why a text is no path. -/
inductive PathError where
  | empty
  | invalid (rest : String)
  | trailingDot (whole : String)
  | longIndex (digits : Nat)
  deriving DecidableEq

def PathError.message : PathError → String
  | .empty => "Empty path"
  | .invalid rest => "Invalid path syntax at: " ++ rest
  | .trailingDot whole => "Trailing dot in path: " ++ whole
  | .longIndex digits => DigitLimit.readingMessage digits

def Segment.value : Segment → Value
  | .key name => .str name
  | .index position => .int position

namespace Path

/-- Whether a character may stand in a key. -/
def isKeyChar (c : Char) : Bool := c != '.' && c != '[' && c != ']'

/-- The sign and the digits of a position in brackets at the start of a text, with what follows. -/
def takeIndex? (s : List Char) : Option (Bool × List Char × List Char) :=
  match s with
  | '[' :: inside =>
    let signed := inside.head? == some '-'
    let body := if signed then inside.drop 1 else inside
    let digits := body.takeWhile Text.isDigit
    match digits, body.drop digits.length with
    | _ :: _, ']' :: rest => some (signed, digits, rest)
    | _, _ => none
  | _ => none

def takeSegment (s : List Char) : Except PathError (Segment × List Char) :=
  match takeIndex? s with
  | some (signed, digits, rest) => match DigitLimit.read digits with
    | .ok n => .ok (.index (if signed then -(n : Int) else n), rest)
    | .error count => .error (.longIndex count)
  | none =>
    let key := s.takeWhile isKeyChar
    if key.isEmpty then .error (.invalid (String.ofList s))
    else .ok (.key (String.ofList key), s.drop key.length)

/-- Reads segments until the text ends. Each step leaves a shorter text, so a budget of the text's
length is enough. -/
def parseFrom (whole : String) : Nat → List Char → Except PathError (List Segment)
  | _, [] => .ok []
  | 0, rest => .error (.invalid (String.ofList rest))
  | budget + 1, s =>
    match takeSegment s with
    | .error error => .error error
    | .ok (_, '.' :: []) => .error (.trailingDot whole)
    | .ok (segment, '.' :: rest) => (parseFrom whole budget rest).map (segment :: ·)
    | .ok (segment, rest) => (parseFrom whole budget rest).map (segment :: ·)

/-- Reads a path; a text without characters is none. -/
def parse (s : String) : Except PathError (List Segment) :=
  if s.isEmpty then .error .empty else parseFrom s s.length s.toList

/-- The text of a segment: a position in brackets, or a key after a dot unless it comes first. -/
def piece (isFirst : Bool) : Value → String
  | .int n => "[" ++ toString n ++ "]"
  | key => (if isFirst then "" else ".") ++ key.text

def format : List Value → String
  | [] => ""
  | segment :: rest => piece true segment ++ String.join (rest.map (piece false))

end Path

end Conform
