import Conform.Entries
import Conform.Value.SetOrder

/-!
Equality of values. Numbers are equal by their exact value whatever their type; sets and
dictionaries compare without order. `Value.equiv`, which keys and items are compared by, holds also
of an item and itself, so a not-a-number is equivalent to itself and yet never equal.
-/
namespace Conform

namespace Value

def isNaN (tag : Nat) : Value → Bool
  | .float (.nan other) => tag == other
  | _ => false

def everyRow (table : List (List Bool)) : Bool := table.all (·.any id)

def everyColumn (columns : Nat) (table : List (List Bool)) : Bool :=
  (table.foldl (List.zipWith (· || ·)) (List.replicate columns false)).all id

mutual

/-- Whether two values are one item or equal. Sets are when each item of either is equivalent to one
of the other; every pair is looked at once, so the work stays in proportion to the nesting. -/
def equiv : Value → Value → Bool
  | .null, y => y.isNull
  | .missing, y => y.isMissing
  | .bool b, y => y.magnitude? == some (.ofInt (if b then 1 else 0))
  | .int n, y => match y with
    | .int m => n == m
    | y => y.magnitude? == some (.ofInt n)
  | .float x, y =>
    match x with
    | .nan tag => y.isNaN tag
    | x => y.magnitude? == x.magnitude? && y.magnitude?.isSome
  | .str s, y => match y with
    | .str t => s == t
    | _ => false
  | .bytes bs, y => match y with
    | .bytes cs => bs == cs
    | _ => false
  | .list xs, y => match y with
    | .list ys => equivEach xs ys
    | _ => false
  | .tuple xs, y => match y with
    | .tuple ys => equivEach xs ys
    | _ => false
  | .set xs, y | .frozenset xs, y => match y.elements? with
    | some ys =>
      let table := itemTable xs ys
      everyRow table && everyColumn ys.length table
    | none => false
  | .dict xs, y | .mapping xs, y => match y.entries? with
    | some ys =>
      let table := entryTable xs ys
      everyRow table && everyColumn ys.length table
    | none => false
  | .object cls i, y => match y with
    | .object cls' j => cls == cls' && i == j
    | _ => false
termination_by structural x => x

/-- Whether two lists are equivalent item by item. -/
def equivEach : List Value → List Value → Bool
  | [], ys => ys.isEmpty
  | x :: xs, ys => match ys with
    | y :: ys => equiv x y && equivEach xs ys
    | [] => false
termination_by structural x => x

/-- For each item of the first list, which items of the second it is equivalent to. -/
def itemTable : List Value → List Value → List (List Bool)
  | [], _ => []
  | x :: xs, ys => ys.map (equiv x) :: itemTable xs ys
termination_by structural x => x

/-- For each entry of the first dictionary, which entries of the second it is equivalent to. -/
def entryTable : List (Value × Value) → List (Value × Value) → List (List Bool)
  | [], _ => []
  | (k, x) :: xs, ys =>
    (ys.map fun entry => equiv k entry.1 && equiv x entry.2) :: entryTable xs ys
termination_by structural x => x

end

instance : BEq Value := ⟨equiv⟩

/-- Equality of two values; a not-a-number equals nothing. -/
def eq : Value → Value → Bool
  | .float (.nan _), _ => false
  | x, y => equiv x y

def sameAs (x y : Value) : Bool := x.eq y && x.typeName == y.typeName

/-- Values without those that are equivalent to an earlier one. -/
def unrepeated (items : List Value) : List Value :=
  items.foldl (fun kept item => if kept.any (· == item) then kept else kept ++ [item]) []

/-- The items of the set that a list of values makes, in the order in which they are run through. -/
def distinct (items : List Value) : List Value := SetOrder.arrange (unrepeated items)

end Value

end Conform
