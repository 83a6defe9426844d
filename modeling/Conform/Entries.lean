/-!
Insertion-ordered dictionaries as lists of entries. A repeated key keeps its first place and its
first spelling and takes the last value.
-/
namespace Conform

/-- Entries in insertion order. -/
abbrev Entries (κ α : Type) := List (κ × α)

namespace Entries

variable {κ α : Type} [BEq κ]

def get? (entries : Entries κ α) (key : κ) : Option α :=
  (entries.find? fun entry => entry.1 == key).map (·.2)

def has (entries : Entries κ α) (key : κ) : Bool := entries.any fun entry => entry.1 == key

/-- The entries with a value given to the key: in the place it has, or at the end. -/
def insert : Entries κ α → κ → α → Entries κ α
  | [], key, value => [(key, value)]
  | entry :: rest, key, value =>
    if entry.1 == key then (entry.1, value) :: rest else entry :: insert rest key value

def erase (entries : Entries κ α) (key : κ) : Entries κ α :=
  entries.filter fun entry => !(entry.1 == key)

def merge (first second : Entries κ α) : Entries κ α :=
  second.foldl (fun entries entry => entries.insert entry.1 entry.2) first

def ofPairs (pairs : List (κ × α)) : Entries κ α := merge [] pairs

def keys (entries : Entries κ α) : List κ := entries.map (·.1)

end Entries

end Conform
