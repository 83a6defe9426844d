import Conform.Text.Digit

/-!
The limit on the decimal digits of an integer that are read or written at once. Signs and separators
are not counted, zeros in front are.
-/
namespace Conform.DigitLimit

/-- The greatest number of digits. -/
def digits : Nat := 4300

/-- What both refusals begin with. -/
def opening : String := "Exceeds the limit (" ++ toString digits ++
    " digits) for integer string conversion"

/-- What both refusals end with. -/
def advice : String := "; use sys.set_int_max_str_digits() to increase the limit"

/-- The refusal of a text with too many digits. -/
def readingMessage (given : Nat) : String :=
  opening ++ ": value has " ++ toString given ++ " digits" ++ advice

/-- The refusal of an integer with too many digits. -/
def writingMessage : String := opening ++ advice

/-- The number that digits denote, or how many there are when they are too many. -/
def read (text : List Char) : Except Nat Nat :=
  if digits < text.length then .error text.length else .ok (Text.digitsValue text)

/-- Whether an integer has no more digits than can be written. -/
def admits (n : Int) : Bool := n.natAbs < Nat.pow 10 digits

end Conform.DigitLimit
