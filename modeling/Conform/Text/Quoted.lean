import Conform.Text.Printable

/-!
Quoted text. A string stands between apostrophes, or between double quotes when it holds apostrophes
and no double quote; characters without a visible form are written as escapes.
-/
namespace Conform.Text

/-- A number as exactly `width` or more lower-case hexadecimal digits. -/
def hex (width n : Nat) : String :=
  let digits := Nat.toDigits 16 n
  String.ofList (List.replicate (width - digits.length) '0' ++ digits)

/-- The quotation mark that a text takes. -/
def quoteOf (hasApostrophe hasDouble : Bool) : Char :=
  if hasApostrophe && !hasDouble then '"' else '\''

def quotedChar (quote c : Char) : String :=
  if c == quote || c == '\\' then String.ofList ['\\', c]
  else if c == '\n' then "\\n"
  else if c == '\r' then "\\r"
  else if c == '\t' then "\\t"
  else if isPrintable c then String.ofList [c]
  else if c.toNat < 0x100 then "\\x" ++ hex 2 c.toNat
  else if c.toNat < 0x10000 then "\\u" ++ hex 4 c.toNat
  else "\\U" ++ hex 8 c.toNat

def quoted (s : String) : String :=
  let quote := quoteOf (s.toList.contains '\'') (s.toList.contains '"')
  String.ofList [quote] ++ String.join (s.toList.map (quotedChar quote)) ++ String.ofList [quote]

def quotedByte (quote : Char) (b : UInt8) : String :=
  let c := Char.ofNat b.toNat
  if c == quote || c == '\\' then String.ofList ['\\', c]
  else if c == '\n' then "\\n"
  else if c == '\r' then "\\r"
  else if c == '\t' then "\\t"
  else if 0x20 ≤ b.toNat && b.toNat < 0x7f then String.ofList [c]
  else "\\x" ++ hex 2 b.toNat

/-- A byte string between quotation marks, marked by a letter in front. -/
def quotedBytes (bytes : List UInt8) : String :=
  let quote := quoteOf (bytes.contains 0x27) (bytes.contains 0x22)
  "b" ++ String.ofList [quote] ++ String.join (bytes.map (quotedByte quote)) ++
    String.ofList [quote]

end Conform.Text
