import Conform.Value.Equality

/-!
Order of values: numbers among themselves, text by code point, byte strings, lists and tuples
lexicographically, sets by inclusion. Other pairs have no order.
-/
namespace Conform

/-- An order question about two values. -/
inductive Comparison where
  | less | atMost | greater | atLeast
  deriving DecidableEq

namespace Comparison

/-- The answer that a three-way comparison gives. -/
def holds : Comparison → Ordering → Bool
  | .less, o => o == .lt
  | .atMost, o => o != .gt
  | .greater, o => o == .gt
  | .atLeast, o => o != .lt

def operator : Comparison → String
  | .less => "<"
  | .atMost => "<="
  | .greater => ">"
  | .atLeast => ">="

/-- The same question about the two values in the other order. -/
def reversed : Comparison → Comparison
  | .less => .greater
  | .atMost => .atLeast
  | .greater => .less
  | .atLeast => .atMost

/-- The answer for sets, whose order is inclusion. -/
def holdsOfSets (c : Comparison) (within containing : Bool) : Bool :=
  match c with
  | .less => within && !containing
  | .atMost => within
  | .greater => containing && !within
  | .atLeast => containing

end Comparison

namespace Value

/-- Three-way lexicographic comparison of numbers. -/
def compareNats : List Nat → List Nat → Ordering
  | [], [] => .eq
  | [], _ :: _ => .lt
  | _ :: _, [] => .gt
  | x :: xs, y :: ys => if x < y then .lt else if y < x then .gt else compareNats xs ys

/-- The answer for numbers; with a not-a-number no comparison holds. -/
def compareNumbers (c : Comparison) (x y : Value) : Bool :=
  match x.magnitude?, y.magnitude? with
  | some a, some b => c.holds (a.compare b)
  | _, _ => false

mutual

/-- The answer to an order question, or nothing when the two values have no order. -/
def compare? (c : Comparison) : Value → Value → Option Bool
  | .list xs, y => match y with
    | .list ys => compareEach? c xs ys
    | _ => none
  | .tuple xs, y => match y with
    | .tuple ys => compareEach? c xs ys
    | _ => none
  | .str s, y => match y with
    | .str t => some (c.holds (compareNats (s.toList.map Char.toNat) (t.toList.map Char.toNat)))
    | _ => none
  | .bytes bs, y => match y with
    | .bytes cs => some (c.holds (compareNats (bs.map UInt8.toNat) (cs.map UInt8.toNat)))
    | _ => none
  | .set xs, y | .frozenset xs, y =>
    y.elements?.map fun ys =>
      let table := itemTable xs ys
      c.holdsOfSets (everyRow table) (everyColumn ys.length table)
  | x, y => if x.isNumeric && y.isNumeric then some (compareNumbers c x y) else none
termination_by structural x => x

/-- Lexicographic comparison: the first items that differ decide, else the lengths. -/
def compareEach? (c : Comparison) : List Value → List Value → Option Bool
  | [], ys => some (c.holds (if ys.isEmpty then .eq else .lt))
  | x :: xs, ys => match ys with
    | [] => some (c.holds .gt)
    | y :: ys => if equiv x y then compareEach? c xs ys else compare? c x y
termination_by structural x => x

end

end Value

end Conform
