import Conform.Numeric.Binary64

/-!
Decimal text of binary64 numbers: the fewest digits that read back to the same number, the nearest
such digits among equally few, and the layout in which they are written. The reader accepts the
written forms.
-/
namespace Conform

/-- A positive decimal number `digits * 10 ^ exponent`. -/
structure Decimal where
  digits : Nat
  exponent : Int
  deriving DecidableEq

namespace Decimal

/-- The decimal without its trailing zeros; `budget` bounds their number. -/
def trim : Nat → Decimal → Decimal
  | 0, d => d
  | budget + 1, d =>
    if d.digits ≠ 0 ∧ d.digits % 10 = 0 then trim budget ⟨d.digits / 10, d.exponent + 1⟩ else d

/-- Number of decimal digits of a positive number. -/
def width (n : Nat) : Nat := (Nat.toDigits 10 n).length

/-- The place of the decimal point: the least `p` for which the number is below `10 ^ p`. -/
def pointOf (units : Nat) : Int :=
  (width (units * Nat.pow 10 324 / Binary64.unitsPerOne) : Int) - 324

/-- Whether the decimal rounds to the given finite magnitude. -/
def readsBack (units : Nat) (d : Decimal) : Bool :=
  Binary64.ofDecimal false d.digits d.exponent == .finite false units

/-- Of the two decimals with the given exponent around a magnitude, the one that reads back; when
both do, the nearer, and at equal distance the one whose last digit is even. -/
def onGrid? (units : Nat) (exponent : Int) : Option Decimal :=
  let numerator := units * Nat.pow 10 (-exponent).toNat
  let denominator := Binary64.unitsPerOne * Nat.pow 10 exponent.toNat
  let low : Decimal := ⟨numerator / denominator, exponent⟩
  let high : Decimal := ⟨numerator / denominator + 1, exponent⟩
  let nearest : Decimal := ⟨Binary64.roundHalfEven numerator denominator, exponent⟩
  match readsBack units low, readsBack units high with
  | true, true => some nearest
  | true, false => some low
  | false, true => some high
  | false, false => none

/-- The shortest decimal that reads back to a positive finite magnitude. -/
def shortest (units : Nat) : Decimal :=
  let point := pointOf units
  let found := (List.range 17).findSome? fun k => onGrid? units (point - (k + 1 : Nat))
  trim 17 (found.getD ⟨0, 0⟩)

end Decimal

/-- The choices of a decimal layout: the powers of ten written positionally, the least width of an
exponent, and the names of the numbers that have no digits. -/
structure FloatLayout where
  leastPositional : Int
  mostPositional : Int
  exponentWidth : Nat
  infinity : String
  notANumber : String

namespace FloatLayout

/-- Numbers from `1e-04` to below `1e+16` are positional and keep one fractional digit at least;
other exponents have a sign and two digits. -/
def standard : FloatLayout := ⟨-4, 15, 2, "inf", "nan"⟩

def document : FloatLayout := ⟨-4, 15, 2, "Infinity", "NaN"⟩

private def zeros (count : Nat) : String := String.ofList (List.replicate count '0')

private def padded (width : Nat) (n : Nat) : String :=
  let text := toString n
  zeros (width - text.length) ++ text

def render (layout : FloatLayout) (d : Decimal) : String :=
  let text := toString d.digits
  let scale := d.exponent + text.length - 1
  if layout.leastPositional ≤ scale ∧ scale ≤ layout.mostPositional then
    if scale < 0 then "0." ++ zeros (-scale - 1).toNat ++ text
    else if 0 ≤ d.exponent then text ++ zeros d.exponent.toNat ++ ".0"
    else String.ofList (text.toList.take (scale.toNat + 1)) ++ "."
      ++ String.ofList (text.toList.drop (scale.toNat + 1))
  else
    let fraction := String.ofList (text.toList.drop 1)
    String.ofList (text.toList.take 1)
      ++ (if fraction.isEmpty then "" else "." ++ fraction)
      ++ "e" ++ (if scale < 0 then "-" else "+") ++ padded layout.exponentWidth scale.natAbs

end FloatLayout

namespace Binary64

def text (layout : FloatLayout) : Binary64 → String
  | .nan _ => layout.notANumber
  | .infinite negative => (if negative then "-" else "") ++ layout.infinity
  | .finite negative units =>
    (if negative then "-" else "")
      ++ (if units = 0 then "0.0" else layout.render (Decimal.shortest units))

private def digits? (s : List Char) : Option Nat :=
  if s.isEmpty then none
  else s.foldl (fun total c => total.bind fun n =>
    if c.isDigit then some (10 * n + (c.toNat - 48)) else none) (some 0)

private def exponent? (s : List Char) : Option Int :=
  match s with
  | '-' :: rest => (digits? rest).map fun n => -(n : Int)
  | '+' :: rest => (digits? rest).map fun n => (n : Int)
  | rest => (digits? rest).map fun n => (n : Int)

private def unsigned? (negative : Bool) (s : List Char) : Option Binary64 :=
  let mantissa := s.takeWhile fun c => c != 'e' && c != 'E'
  let scale := (s.drop mantissa.length).drop 1
  let whole := mantissa.takeWhile (· != '.')
  let fraction := (mantissa.drop whole.length).drop 1
  match digits? (whole ++ fraction),
      if mantissa.length = s.length then some 0 else exponent? scale with
  | some n, some e => some (ofDecimal negative n (e - fraction.length))
  | _, _ => none

/-- Reads a number from its text, in either of the two written forms; `tag` becomes the tag of a
not-a-number. -/
def read? (tag : Nat) (s : String) : Option Binary64 :=
  match s.toList with
  | ['n', 'a', 'n'] => some (.nan tag)
  | ['i', 'n', 'f'] => some (.infinite false)
  | ['-', 'i', 'n', 'f'] => some (.infinite true)
  | '-' :: rest => unsigned? true rest
  | rest => unsigned? false rest

end Binary64

end Conform
