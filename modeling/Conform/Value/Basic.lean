import Conform.Numeric.Binary64

/-!
The values that schemas inspect, their types and the properties that do not compare them.
-/
namespace Conform

/-- A nominal class of objects with the names of the classes it extends. -/
structure NominalClass where
  name : String
  ancestors : List String
  deriving DecidableEq

/-- A dynamically typed value. `missing` stands for an absent one, and `identity` tells apart
objects of one class. A `mapping` is a dictionary that cannot be changed. -/
inductive Value where
  | null
  | missing
  | bool (b : Bool)
  | int (n : Int)
  | float (x : Binary64)
  | str (s : String)
  | bytes (bs : List UInt8)
  | list (items : List Value)
  | tuple (items : List Value)
  | set (items : List Value)
  | frozenset (items : List Value)
  | dict (entries : List (Value × Value))
  | mapping (entries : List (Value × Value))
  | object (cls : NominalClass) (identity : Nat)

/-- A class that values can be instances of. -/
inductive Class where
  | str | int | float | bool | null | any | bytes | list | tuple | dict | set | frozenset
  | nominal (cls : NominalClass)
  deriving DecidableEq

namespace Class

def name : Class → String
  | .str => "str"
  | .int => "int"
  | .float => "float"
  | .bool => "bool"
  | .null => "NoneType"
  | .any => "object"
  | .bytes => "bytes"
  | .list => "list"
  | .tuple => "tuple"
  | .dict => "dict"
  | .set => "set"
  | .frozenset => "frozenset"
  | .nominal cls => cls.name

end Class

namespace Value

instance : Inhabited Value := ⟨.null⟩

def typeName : Value → String
  | .null => "NoneType"
  | .missing => "_MissingType"
  | .bool _ => "bool"
  | .int _ => "int"
  | .float _ => "float"
  | .str _ => "str"
  | .bytes _ => "bytes"
  | .list _ => "list"
  | .tuple _ => "tuple"
  | .set _ => "set"
  | .frozenset _ => "frozenset"
  | .dict _ => "dict"
  | .mapping _ => "mappingproxy"
  | .object cls _ => cls.name

/-- Whether a value is an instance of a class; a Boolean is also an integer. -/
def isInstance : Value → Class → Bool
  | _, .any => true
  | .null, .null => true
  | .bool _, .bool | .bool _, .int => true
  | .int _, .int => true
  | .float _, .float => true
  | .str _, .str => true
  | .bytes _, .bytes => true
  | .list _, .list => true
  | .tuple _, .tuple => true
  | .set _, .set => true
  | .frozenset _, .frozenset => true
  | .dict _, .dict => true
  | .object cls _, .nominal target => cls.name == target.name || cls.ancestors.contains target.name
  | _, _ => false

/-- Whether a value is the mark of an absent one. -/
def isMissing : Value → Bool
  | .missing => true
  | _ => false

def isNull : Value → Bool
  | .null => true
  | _ => false

def isStr : Value → Bool
  | .str _ => true
  | _ => false

def entries? : Value → Option (List (Value × Value))
  | .dict entries | .mapping entries => some entries
  | _ => none

def items? : Value → Option (List Value)
  | .list items | .tuple items => some items
  | _ => none

def elements? : Value → Option (List Value)
  | .set items | .frozenset items => some items
  | _ => none

def integer? : Value → Option Int
  | .bool b => some (if b then 1 else 0)
  | .int n => some n
  | _ => none

/-- The place of a number on the extended line; not-a-number has none. -/
def magnitude? : Value → Option Magnitude
  | .bool b => some (.ofInt (if b then 1 else 0))
  | .int n => some (.ofInt n)
  | .float x => x.magnitude?
  | _ => none

/-- Whether a value is a number, a Boolean included. -/
def isNumeric : Value → Bool
  | .bool _ | .int _ | .float _ => true
  | _ => false

/-- The number of characters, bytes, items or entries of a value that has a length. -/
def length? : Value → Option Nat
  | .str s => some s.length
  | .bytes bs => some bs.length
  | .list items | .tuple items | .set items | .frozenset items => some items.length
  | .dict entries | .mapping entries => some entries.length
  | _ => none

/-- Truth of a value: absent, null, zero and empty values are false. -/
def truthy : Value → Bool
  | .null | .missing => false
  | .bool b => b
  | .int n => n != 0
  | .float x => x.isNonzero
  | .object _ _ => true
  | v => v.length?.any (0 < ·)

/-- What a value yields when it is run through item by item: the characters of text, the keys of a
dictionary. -/
def iterate? : Value → Option (List Value)
  | .str s => some (s.toList.map fun c => .str (String.ofList [c]))
  | .bytes bs => some (bs.map fun b => .int b.toNat)
  | .list items | .tuple items | .set items | .frozenset items => some items
  | .dict entries | .mapping entries => some (entries.map (·.1))
  | _ => none

mutual

/-- The name of the first type inside a value that cannot serve as a key. -/
def unhashable? : Value → Option String
  | .list _ => some "list"
  | .set _ => some "set"
  | .dict _ => some "dict"
  | .mapping _ => some "mappingproxy"
  | .tuple items => unhashableIn? items
  | _ => none

/-- The name of the first type among values that cannot serve as a key. -/
def unhashableIn? : List Value → Option String
  | [] => none
  | item :: rest => (unhashable? item).orElse fun _ => unhashableIn? rest

end

mutual

/-- Nesting depth: nothing for a value that holds no others, one more than the deepest item for a
container. -/
def depth : Value → Nat
  | .list items | .tuple items | .set items | .frozenset items => depthIn items + 1
  | .dict entries | .mapping entries => depthOfEntries entries + 1
  | _ => 0

def depthIn : List Value → Nat
  | [] => 0
  | item :: rest => max (depth item) (depthIn rest)

def depthOfEntries : List (Value × Value) → Nat
  | [] => 0
  | (key, item) :: rest => max (max (depth key) (depth item)) (depthOfEntries rest)

end

end Value

end Conform
