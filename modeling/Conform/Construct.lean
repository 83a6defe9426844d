import Conform.Numeric.DigitLimit
import Conform.Numeric.Shortest
import Conform.Text.Blank
import Conform.Value.Display
import Conform.Value.Equality

/-!
What the bare classes make of a value when they are called with it, or the reason why they refuse.
-/
namespace Conform

namespace Class

def isSpace (c : Char) : Bool := c == ' ' || (9 ≤ c.toNat && c.toNat ≤ 13)

/-- Text without the white space of ASCII at its ends. -/
def trimSpaces (s : List Char) : List Char :=
  ((s.dropWhile isSpace).reverse.dropWhile isSpace).reverse

/-- Text with the decimal digits of every script as ASCII digits, and the white space beyond ASCII
as spaces. -/
def plainDigits (s : List Char) : List Char :=
  s.map fun c =>
    if c.toNat < 128 then c
    else if Text.isBlank c then ' '
    else (Text.digitValue? c).elim c fun value => Char.ofNat (48 + value)

/-- Text without its low lines, each of which has to stand between two digits. -/
def joinDigits? : List Char → Option (List Char)
  | [] => some []
  | '_' :: _ => none
  | c :: '_' :: d :: rest =>
    if c.isDigit && d.isDigit then (joinDigits? (d :: rest)).map (c :: ·) else none
  | c :: rest => (joinDigits? rest).map (c :: ·)

/-- A sign at the start of a text: whether it is a minus, and what follows. -/
def takeSign : List Char → Bool × List Char
  | '-' :: rest => (true, rest)
  | '+' :: rest => (false, rest)
  | s => (false, s)

/-- Why a text spells no integer. -/
inductive IntegerError where
  | malformed
  | tooLong (digits : Nat)

/-- The integer that a text spells: white space, a sign, digits with low lines between them, white
space. Too many digits are refused before what follows them is looked at. -/
def readInt (s : List Char) : Except IntegerError Int := do
  let (negative, body) := takeSign (s.dropWhile isSpace)
  let spelled := body.takeWhile fun c => c.isDigit || c == '_'
  match joinDigits? spelled with
  | none | some [] => throw .malformed
  | some digits => match DigitLimit.read digits with
    | .error count => throw (.tooLong count)
    | .ok n =>
      if (body.drop spelled.length).all isSpace then return if negative then -(n : Int) else n
      else throw .malformed

def byteChars (bytes : List UInt8) : List Char := bytes.map fun b => Char.ofNat b.toNat

/-- The greatest length of a text that is shown when it spells no integer. -/
def shownLength : Nat := 200

/-- The refusal of a text that spells no integer, which shows the beginning of it. -/
def malformedInt (shown : Value) : String :=
  "invalid literal for int() with base 10: "
    ++ String.ofList (shown.quoted.toList.take shownLength)

/-- The integer part of a finite number of units. -/
def truncated (negative : Bool) (units : Nat) : Int :=
  Binary64.signedUnits negative (units / Binary64.unitsPerOne)

def toInt (x : Value) : Except String Value :=
  let spelled (s : List Char) (shown : Value) : Except String Value := match readInt s with
    | .ok n => .ok (.int n)
    | .error .malformed => .error (malformedInt shown)
    | .error (.tooLong digits) => .error (DigitLimit.readingMessage digits)
  match x with
  | .int n => .ok (.int n)
  | .bool b => .ok (.int (if b then 1 else 0))
  | .float y => match y with
    | .finite negative units => .ok (.int (truncated negative units))
    | .infinite _ => .error "cannot convert float infinity to integer"
    | .nan _ => .error "cannot convert float NaN to integer"
  | .str s => spelled (plainDigits s.toList) x
  | .bytes bs => spelled (byteChars bs) (.bytes (bs.take shownLength))
  | _ => .error ("int() argument must be a string, a bytes-like object or a real number, not '"
      ++ x.typeName ++ "'")

/-- The number that a text spells; names of the special numbers are read in any case. -/
def readFloat? (s : List Char) : Option Binary64 := do
  let (negative, body) := takeSign (trimSpaces s)
  let joined ← joinDigits? body
  let lower := String.ofList (joined.map Char.toLower)
  if lower == "inf" || lower == "infinity" then return .infinite negative
  else if lower == "nan" then return .nan 0
  else
    guard (joined.head?.any fun c => c.isDigit || c == '.')
    Binary64.read? 0 ((if negative then "-" else "") ++ lower)

def toFloat (x : Value) : Except String Value :=
  let converted (n : Int) : Except String Value := match Binary64.ofInt? n with
    | some y => .ok (.float y)
    | none => .error "int too large to convert to float"
  let spelled (s : List Char) : Except String Value := match readFloat? s with
    | some y => .ok (.float y)
    | none => .error ("could not convert string to float: " ++ x.quoted)
  match x with
  | .float y => .ok (.float y)
  | .int n => converted n
  | .bool b => converted (if b then 1 else 0)
  | .str s => spelled (plainDigits s.toList)
  | .bytes bs => spelled (byteChars bs)
  | _ => .error ("float() argument must be a string or a real number, not '" ++ x.typeName ++ "'")

/-- The items of a value that can be run through. -/
def iterated (x : Value) : Except String (List Value) :=
  match x.iterate? with
  | some items => .ok items
  | none => .error ("'" ++ x.typeName ++ "' object is not iterable")

def elements (x : Value) : Except String (List Value) := do
  let items ← iterated x
  match items.findSome? Value.unhashable? with
  | some found => throw ("unhashable type: '" ++ found ++ "'")
  | none => return Value.distinct items

def toByte (x : Value) : Except String UInt8 :=
  match x.integer? with
  | some n =>
    if 0 ≤ n ∧ n < 256 then .ok n.toNat.toUInt8 else .error "bytes must be in range(0, 256)"
  | none => .error ("'" ++ x.typeName ++ "' object cannot be interpreted as an integer")

/-- That many zero bytes. What no index can count is refused, what no object can hold likewise, and
what no memory can hold without a reason. -/
def zeroBytes (n : Int) : Except String Value :=
  if n < -Nat.pow 2 63 ∨ Nat.pow 2 63 ≤ n then .error "cannot fit 'int' into an index-sized integer"
  else if n < 0 then .error "negative count"
  else if Nat.pow 2 63 - 33 ≤ n then .error "byte string is too large"
  else if Nat.pow 2 40 ≤ n then .error ""
  else .ok (.bytes (List.replicate n.toNat 0))

def toBytes (x : Value) : Except String Value :=
  match x, x.integer? with
  | .bytes bs, _ => .ok (.bytes bs)
  | .str _, _ => .error "string argument without an encoding"
  | _, some n => zeroBytes n
  | x, none => match x.iterate? with
    | some items => (items.mapM toByte).map .bytes
    | none => .error ("cannot convert '" ++ x.typeName ++ "' object to bytes")

def toEntry (position : Nat) (x : Value) : Except String (Value × Value) :=
  match x.iterate? with
  | some [key, item] => match key.unhashable? with
    | some found => .error ("unhashable type: '" ++ found ++ "'")
    | none => .ok (key, item)
  | some items => .error ("dictionary update sequence element #" ++ toString position
      ++ " has length " ++ toString items.length ++ "; 2 is required")
  | none => .error ("cannot convert dictionary update sequence element #" ++ toString position
      ++ " to a sequence")

def toDict (x : Value) : Except String Value :=
  match x.entries? with
  | some entries => .ok (.dict entries)
  | none => do
    let items ← iterated x
    let entries ← items.zipIdx.mapM fun (item, position) => toEntry position item
    return .dict (Entries.ofPairs entries)

/-- What calling a class with a value gives. -/
def construct (cls : Class) (x : Value) : Except String Value :=
  match cls with
  | .str => if x.isWritable then .ok (.str x.text) else .error DigitLimit.writingMessage
  | .int => toInt x
  | .float => toFloat x
  | .bool => .ok (.bool x.truthy)
  | .null => .error "NoneType takes no arguments"
  | .any => .error "object() takes no arguments"
  | .bytes => toBytes x
  | .list => (iterated x).map .list
  | .tuple => (iterated x).map .tuple
  | .dict => toDict x
  | .set => (elements x).map .set
  | .frozenset => (elements x).map .frozenset
  | .nominal cls => .error (cls.name ++ "() takes no arguments")

end Class

end Conform
