import Conform.Pattern.Basic

/-!
Whether a pattern occurs in a text. The places of a text lie before, between and after its
characters, and a set of places is the number whose binary digits tell which belong to it. A pattern
takes a set of places to the set of all places where a match begun at one of them can end, so greedy
and reluctant repetition are the same.
-/
namespace Conform

namespace Places

/-- Every place of a text. -/
def all (text : List Char) : Nat := Nat.pow 2 (text.length + 1) - 1

/-- The places before the characters that pass a test. -/
def before (test : Char → Bool) : List Char → Nat
  | [] => 0
  | c :: rest => 2 * before test rest + if test c then 1 else 0

/-- The place after the last character. -/
def textEnd (text : List Char) : Nat := Nat.pow 2 text.length

/-- The place after the last character, and the one before it if it ends a line. -/
def finish (text : List Char) : Nat :=
  textEnd text + if text.getLast? == some '\n' then Nat.pow 2 (text.length - 1) else 0

/-- The places where a word begins or ends, given whether one goes on. -/
def wordEdges (within : Bool) : List Char → Nat
  | [] => if within then 1 else 0
  | c :: rest => 2 * wordEdges (Text.isWord c) rest + if Text.isWord c != within then 1 else 0

/-- The places that do or do not divide a word from what is none; a text without characters has
neither. -/
def boundaries (negated : Bool) (text : List Char) : Nat :=
  if text.isEmpty then 0
  else if negated then all text ^^^ wordEdges false text else wordEdges false text

/-- The places of the first set that are not in the second. -/
def without (first second : Nat) : Nat := (first ||| second) ^^^ second

end Places

/-- A pattern as it works on one text: the places it can leave by one character, the places it can
stay at, and what is built from these. `further` bounds the repetitions beyond the least number. -/
inductive Matcher where
  | leave (places : Nat)
  | stay (places : Nat)
  | sequence (first second : Matcher)
  | either (first second : Matcher)
  | repeated (body : Matcher) (least further : Nat)

namespace Matcher

/-- The places reached by exactly so many steps; once a step changes nothing, no other does. -/
def exactly (step : Nat → Nat) : Nat → Nat → Nat
  | 0, places => places
  | count + 1, places =>
    let next := step places
    if next = places then places else exactly step count next

/-- The places reached so far and those reached from the newest of them by at most so many steps. -/
def atMost (step : Nat → Nat) : Nat → Nat → Nat → Nat
  | 0, reached, _ => reached
  | count + 1, reached, newest =>
    let next := Places.without (step newest) reached
    if next = 0 then reached else atMost step count (reached ||| next) next

/-- The places where a match begun at one of some places can end. -/
def ends : Matcher → Nat → Nat
  | .leave places, here => 2 * (here &&& places)
  | .stay places, here => here &&& places
  | .sequence first second, here => ends second (ends first here)
  | .either first second, here => ends first here ||| ends second here
  | .repeated body least further, here =>
    let there := exactly (ends body) least here
    atMost (ends body) further there there

end Matcher

namespace Pattern

/-- A pattern as it works on a text. Every further repetition that matters reaches a new place, so
an unbounded number of them is no more than there are places. -/
def on (text : List Char) : Pattern → Matcher
  | .empty => .stay (Places.all text)
  | .char c => .leave (Places.before (· == c) text)
  | .anyChar => .leave (Places.before (· != '\n') text)
  | .oneOf negated items =>
    .leave (Places.before (fun c => (items.any fun item => item.holds c) != negated) text)
  | .start => .stay 1
  | .finish => .stay (Places.finish text)
  | .textEnd => .stay (Places.textEnd text)
  | .boundary negated => .stay (Places.boundaries negated text)
  | .sequence first second => .sequence (first.on text) (second.on text)
  | .either first second => .either (first.on text) (second.on text)
  | .repeated body least most =>
    .repeated (body.on text) least (most.elim (text.length + 1) (· - least))

/-- Whether the pattern occurs somewhere in a text. -/
def occursIn (pattern : Pattern) (text : String) : Bool :=
  (pattern.on text.toList).ends (Places.all text.toList) != 0

end Pattern

end Conform
