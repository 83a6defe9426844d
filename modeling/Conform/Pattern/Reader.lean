import Conform.Pattern.Basic

/-!
The written form of patterns: alternatives, sequences, repetitions, groups and character classes.
Each reader returns what it read with the characters that follow.
-/
namespace Conform

namespace Pattern

/-- A named class after a backslash; capital letters stand for the complements. -/
def namedClass? : Char → Option ClassItem
  | 'd' => some (.named .digit false)
  | 'D' => some (.named .digit true)
  | 'w' => some (.named .word false)
  | 'W' => some (.named .word true)
  | 's' => some (.named .blank false)
  | 'S' => some (.named .blank true)
  | _ => none

/-- The character that a letter after a backslash stands for. -/
def escapedChar : Char → Char
  | 'n' => '\n'
  | 't' => '\t'
  | 'r' => '\r'
  | 'f' => '\x0c'
  | 'v' => '\x0b'
  | 'a' => '\x07'
  | c => c

def hexValue? (c : Char) : Option Nat :=
  if c.isDigit then some (c.toNat - 48)
  else if 'a' ≤ c.toLower && c.toLower ≤ 'f' then some (c.toLower.toNat - 87)
  else none

/-- The character with a number of so many hexadecimal digits, with what follows it. -/
def hexChar? (digits : Nat) (s : List Char) : Option (Char × List Char) := do
  let values ← (s.take digits).mapM hexValue?
  guard (values.length = digits)
  return (Char.ofNat (values.foldl (fun total value => 16 * total + value) 0), s.drop digits)

def isOctal (c : Char) : Bool := '0' ≤ c && c ≤ '7'

/-- The character with a number of at most three octal digits, with what follows it. Outside
brackets fewer than three are one only after a zero. -/
def octalChar? (bracketed : Bool) (s : List Char) : Option (Char × List Char) :=
  let digits := (s.take 3).takeWhile isOctal
  if digits.isEmpty || !(bracketed || digits.length == 3 || s.head? == some '0') then none
  else some (Char.ofNat (digits.foldl (fun total c => 8 * total + (c.toNat - 48)) 0),
    s.drop digits.length)

/-- What stands after a backslash and means one character, with what follows it. -/
def escaped? (bracketed : Bool) (s : List Char) : Option (Char × List Char) :=
  match s with
  | 'x' :: rest => hexChar? 2 rest
  | 'u' :: rest => hexChar? 4 rest
  | 'U' :: rest => hexChar? 8 rest
  | c :: rest => (octalChar? bracketed s).or (some (escapedChar c, rest))
  | [] => none

/-- What stands after a backslash outside brackets, with what follows it. -/
def escape? (s : List Char) : Option (Pattern × List Char) :=
  match s with
  | 'A' :: rest => some (.start, rest)
  | 'Z' :: rest => some (.textEnd, rest)
  | 'b' :: rest => some (.boundary false, rest)
  | 'B' :: rest => some (.boundary true, rest)
  | s => match (s.head?.bind namedClass?) with
    | some item => some (.oneOf false [item], s.drop 1)
    | none => (escaped? false s).map fun (c, rest) => (.char c, rest)

/-- One member of a bracketed class, before a range is looked for. -/
def classAtom? : List Char → Option (ClassItem × List Char)
  | '\\' :: 'b' :: rest => some (.range '\x08' '\x08', rest)
  | '\\' :: s => match (s.head?.bind namedClass?) with
    | some item => some (item, s.drop 1)
    | none => (escaped? true s).map fun (c, rest) => (.range c c, rest)
  | c :: rest => some (.range c c, rest)
  | [] => none

/-- One member of a bracketed class; a dash before the closing bracket is a plain character. -/
def classMember? (s : List Char) : Option (ClassItem × List Char) :=
  match classAtom? s with
  | some (.range low high, '-' :: rest) =>
    if rest.head? == some ']' then some (.range low high, '-' :: rest)
    else match classAtom? rest with
      | some (.range _ high, rest) => some (.range low high, rest)
      | _ => none
  | other => other

/-- The members of a bracketed class up to the closing bracket, which is a plain character when it
comes first. -/
def classMembers? : Nat → Bool → List Char → Option (List ClassItem × List Char)
  | 0, _, _ => none
  | budget + 1, isFirst, s =>
    match s with
    | ']' :: rest =>
      if isFirst then
        match classMember? s with
        | some (item, rest) => (classMembers? budget false rest).map fun (items, rest) =>
          (item :: items, rest)
        | none => none
      else some ([], rest)
    | s => match classMember? s with
      | some (item, rest) => (classMembers? budget false rest).map fun (items, rest) =>
        (item :: items, rest)
      | none => none

def number? (s : List Char) : Option Nat × List Char :=
  let digits := s.takeWhile Char.isDigit
  (if digits.isEmpty then none else some (Text.digitsValue digits), s.drop digits.length)

/-- Bounds in braces; braces of any other content are plain characters. -/
def bounds? (s : List Char) : Option ((Nat × Option Nat) × List Char) :=
  match number? s with
  | (some n, '}' :: rest) => some ((n, some n), rest)
  | (low, ',' :: rest) => match number? rest with
    | (high, '}' :: rest) => some ((low.getD 0, high), rest)
    | _ => none
  | _ => none

def repetition? : List Char → Option ((Nat × Option Nat) × List Char)
  | '*' :: rest => some ((0, none), rest)
  | '+' :: rest => some ((1, none), rest)
  | '?' :: rest => some ((0, some 1), rest)
  | '\x7b' :: rest => bounds? rest
  | _ => none

/-- A reluctance mark after a repetition changes no answer and is passed over. -/
def skipReluctance : List Char → List Char
  | '?' :: rest => rest
  | s => s

/-- What opens a group after its parenthesis and says only that it is not numbered, or its name. -/
def skipGroupMark : List Char → List Char
  | '?' :: ':' :: rest => rest
  | '?' :: 'P' :: '<' :: rest => (rest.dropWhile (· != '>')).drop 1
  | s => s

def withRepetition (atom : Pattern) (s : List Char) : Pattern × List Char :=
  match repetition? s with
  | some ((least, most), rest) => (.repeated atom least most, skipReluctance rest)
  | none => (atom, s)

mutual

/-- Alternatives up to a closing parenthesis or the end. -/
def readAlternatives? : Nat → List Char → Option (Pattern × List Char)
  | 0, _ => none
  | budget + 1, s => match readSequence? budget s with
    | some (first, '|' :: rest) => (readAlternatives? budget rest).map fun (second, rest) =>
      (.either first second, rest)
    | other => other

/-- A sequence up to a bar, a closing parenthesis or the end. -/
def readSequence? : Nat → List Char → Option (Pattern × List Char)
  | 0, _ => none
  | _ + 1, [] => some (.empty, [])
  | budget + 1, c :: s =>
    if c == '|' || c == ')' then some (.empty, c :: s)
    else match readAtom? budget c s with
      | some (atom, rest) =>
        let (item, rest) := withRepetition atom rest
        (readSequence? budget rest).map fun (others, rest) => (.sequence item others, rest)
      | none => none

def readAtom? : Nat → Char → List Char → Option (Pattern × List Char)
  | 0, _, _ => none
  | budget + 1, c, s =>
    match c with
    | '(' => match readAlternatives? budget (skipGroupMark s) with
      | some (body, ')' :: rest) => some (body, rest)
      | _ => none
    | '[' =>
      let negated := s.head? == some '^'
      (classMembers? budget true (if negated then s.drop 1 else s)).map fun (items, rest) =>
        (.oneOf negated items, rest)
    | '\\' => escape? s
    | '.' => some (.anyChar, s)
    | '^' => some (.start, s)
    | '$' => some (.finish, s)
    | c => some (.char c, s)

end

/-- Reads a pattern. Every two nested readers use up a character, which bounds their depth. -/
def read? (text : String) : Option Pattern :=
  match readAlternatives? (4 * text.length + 4) text.toList with
  | some (pattern, []) => some pattern
  | _ => none

end Pattern

end Conform
