/-!
Binary64 numbers held exactly: a finite one is a whole number of units of `2 ^ (-1074)` with a sign,
so that comparing it with an integer or with another number is integer arithmetic. Rounding is to
the nearest representable number, a half going to the even neighbour.
-/
namespace Conform

/-- A binary64 number; `tag` tells apart not-a-number values that are different items. -/
inductive Binary64 where
  | finite (negative : Bool) (units : Nat)
  | infinite (negative : Bool)
  | nan (tag : Nat)
  deriving DecidableEq

/-- A point of the number line extended by its two ends. -/
inductive Magnitude where
  | bottom
  | at (units : Int)
  | top
  deriving DecidableEq

namespace Magnitude

def lt : Magnitude → Magnitude → Bool
  | .bottom, .bottom => false
  | .bottom, _ => true
  | _, .bottom => false
  | .top, _ => false
  | _, .top => true
  | .at a, .at b => decide (a < b)

def compare (a b : Magnitude) : Ordering :=
  if a.lt b then .lt else if b.lt a then .gt else .eq

def ofInt (n : Int) : Magnitude := .at (n * Nat.pow 2 1074)

end Magnitude

namespace Binary64

/-- Units in the number one. -/
def unitsPerOne : Nat := Nat.pow 2 1074

/-- The first magnitude, in units, that is too large to be finite. -/
def unitsBeyond : Nat := Nat.pow 2 2098

/-- The quotient to the nearest whole number, a half going to the even neighbour. -/
def roundHalfEven (numerator denominator : Nat) : Nat :=
  let quotient := numerator / denominator
  let twice := 2 * (numerator % denominator)
  if twice < denominator then quotient
  else if denominator < twice then quotient + 1
  else if quotient % 2 = 0 then quotient else quotient + 1

/-- The quotient in units, rounded to a magnitude of at most 53 significant bits. -/
def roundUnits (numerator denominator : Nat) : Nat :=
  let whole := numerator / denominator
  let excess := whole.log2 + 1 - 53
  roundHalfEven numerator (denominator * Nat.pow 2 excess) * Nat.pow 2 excess

/-- The number nearest to a quotient of units; too large a quotient gives an infinity. -/
def ofUnits (negative : Bool) (numerator denominator : Nat) : Binary64 :=
  let units := roundUnits numerator denominator
  if units < unitsBeyond then .finite negative units else .infinite negative

/-- The number nearest to `digits * 10 ^ exponent`. From `10 ^ 400` on every number is infinite, and
below `10 ^ (-399)` every number is zero, so that no large power is needed. -/
def ofDecimal (negative : Bool) (digits : Nat) (exponent : Int) : Binary64 :=
  if digits = 0 ∨ exponent < -(digits.log2 + 400 : Nat) then .finite negative 0
  else if 400 < exponent then .infinite negative
  else if 0 ≤ exponent then ofUnits negative (digits * unitsPerOne * Nat.pow 10 exponent.toNat) 1
  else ofUnits negative (digits * unitsPerOne) (Nat.pow 10 (-exponent).toNat)

/-- The number nearest to an integer, or nothing when it is too large to be finite. -/
def ofInt? (n : Int) : Option Binary64 :=
  match ofUnits (decide (n < 0)) (n.natAbs * unitsPerOne) 1 with
  | .finite negative units => some (.finite negative units)
  | _ => none

def signedUnits (negative : Bool) (units : Nat) : Int :=
  if negative then -(units : Int) else units

/-- The place of a number on the extended line; not-a-number has none. -/
def magnitude? : Binary64 → Option Magnitude
  | .finite negative units => some (.at (signedUnits negative units))
  | .infinite true => some .bottom
  | .infinite false => some .top
  | .nan _ => none

def add : Binary64 → Binary64 → Binary64
  | .nan tag, _ => .nan tag
  | _, .nan tag => .nan tag
  | .infinite a, .infinite b => if a = b then .infinite a else .nan 0
  | .infinite a, .finite _ _ => .infinite a
  | .finite _ _, .infinite b => .infinite b
  | .finite a m, .finite b n =>
    let sum := signedUnits a m + signedUnits b n
    if sum = 0 then .finite (a && b) 0 else ofUnits (decide (sum < 0)) sum.natAbs 1

/-- Whether the number is neither zero in magnitude nor not-a-number. -/
def isNonzero : Binary64 → Bool
  | .finite _ units => units != 0
  | _ => true

end Binary64

end Conform
