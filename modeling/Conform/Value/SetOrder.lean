import Conform.Value.Basic

/-!
The order in which the items of a set are run through. Items lie in a table at slots that their hash
values choose, and the set is run through slot by slot; a table that fills up is laid out anew in a
larger one. Numbers have hash values, and so have tuples and frozen sets of what has one; a set that
holds anything else keeps the order in which its items came.
-/
namespace Conform

namespace SetOrder

def modulus : Nat := Nat.pow 2 61 - 1

/-- A hash value as an unsigned word: a negative one counts from the top, and minus one gives way to
minus two. -/
def word (negative : Bool) (residue : Nat) : Nat :=
  if !negative || residue = 0 then residue
  else Nat.pow 2 64 - if residue = 1 then 2 else residue

/-- The hash value of a place on the extended line, the same for every type of number. The modulus
divides `2 ^ 1098 - 1`, so units of `2 ^ (-1074)` count `2 ^ 24` each. -/
def ofMagnitude : Magnitude → Nat
  | .at units => word (decide (units < 0)) (units.natAbs * Nat.pow 2 24 % modulus)
  | .top => word false 314159
  | .bottom => word true 314159

def words : Nat := Nat.pow 2 64

/-- A hash value, or another in place of the largest word, which is none. -/
def unlessLargest (other hash : Nat) : Nat := if hash = words - 1 then other else hash

/-- The hash value of a sequence from those of its items: each is multiplied in, the word turned by
31 digits in between. -/
def ofSequence (items : List Nat) : Nat :=
  let seed := 2870177450012600261
  let mixed := items.foldl (fun mixed item =>
    let sum := (mixed + item * 14029467366897019727) % words
    (sum * Nat.pow 2 31 % words + sum / Nat.pow 2 33) * 11400714785074694791 % words) seed
  unlessLargest 1546275796 ((mixed + (items.length ^^^ (seed ^^^ 3527539))) % words)

/-- The hash value of a set from those of its items, whatever their order: each is spread over the
word before they are joined. -/
def ofUnordered (items : List Nat) : Nat :=
  let spread (item : Nat) : Nat :=
    (item ^^^ 89869747 ^^^ item * Nat.pow 2 16 % words) * 3644798167 % words
  let joined := items.foldl (fun joined item => joined ^^^ spread item)
    ((items.length + 1) * 1927868237 % words)
  let folded := joined ^^^ joined / Nat.pow 2 11 ^^^ joined / Nat.pow 2 25
  unlessLargest 590923713 ((folded * 69069 + 907133923) % words)

mutual

def hash? : Value → Option Nat
  | .tuple items => (hashes? items).map ofSequence
  | .frozenset items => (hashes? items).map ofUnordered
  | x => x.magnitude?.map ofMagnitude

def hashes? : List Value → Option (List Nat)
  | [] => some []
  | item :: rest => do
    let first ← hash? item
    let others ← hashes? rest
    return first :: others

end

/-- The slots looked at together: one, or ten in a row where there are so many. -/
def run (size slot : Nat) : List Nat :=
  if slot + 9 < size then (List.range 10).map (slot + ·) else [slot]

/-- The first free slot, looked for from a slot on. The rest of the hash value stirs the search
until it is used up; from then on the search passes every slot, so a budget of a few more looks than
there are slots is enough. -/
def freeSlot (size : Nat) (isFree : Nat → Bool) : Nat → Nat → Nat → Nat
  | 0, _, slot => slot
  | budget + 1, rest, slot =>
    match (run size slot).find? isFree with
    | some free => free
    | none => freeSlot size isFree budget (rest / 32) ((5 * slot + 1 + rest / 32) % size)

/-- An item in a table, with its slot and its hash value. -/
structure Entry where
  slot : Nat
  hash : Nat
  item : Value

/-- A table: its size and its entries by their slots. -/
structure Table where
  size : Nat
  entries : List Entry

namespace Table

def empty (size : Nat) : Table := ⟨size, []⟩

def insertBySlot (entry : Entry) : List Entry → List Entry
  | [] => [entry]
  | other :: rest =>
    if entry.slot < other.slot then entry :: other :: rest else other :: insertBySlot entry rest

def place (table : Table) (hash : Nat) (item : Value) : Table :=
  let isFree (slot : Nat) : Bool := table.entries.all fun entry => entry.slot != slot
  let slot := freeSlot table.size isFree (table.size + 14) hash (hash % table.size)
  { table with entries := insertBySlot ⟨slot, hash, item⟩ table.entries }

/-- The least size of a table above a number of slots: a power of two, eight at least. -/
def sizeAbove (slots : Nat) : Nat := max 8 (Nat.pow 2 (slots.log2 + 1))

/-- The table with one more entry, laid out anew at four times its entries once three fifths of its
slots are in use. -/
def insert (table : Table) (hash : Nat) (item : Value) : Table :=
  let placed := table.place hash item
  let count := placed.entries.length
  if count * 5 < (placed.size - 1) * 3 then placed
  else placed.entries.foldl (fun larger entry => larger.place entry.hash entry.item)
    (empty (sizeAbove (4 * count)))

end Table

/-- The items of a set, given in the order in which they came, in the order in which they are run
through. -/
def arrange (items : List Value) : List Value :=
  match hashes? items with
  | some found =>
    let table := (found.zip items).foldl (fun table entry => table.insert entry.1 entry.2)
      (Table.empty 8)
    table.entries.map (·.item)
  | none => items

end SetOrder

end Conform
