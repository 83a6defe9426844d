import Conform.Text.Quoted

/-!
Strings of JSON documents in ASCII: characters beyond it are written as the escapes of their UTF-16
units.
-/
namespace Conform.Text

def utf16Units (c : Char) : List Nat :=
  if c.toNat < 0x10000 then [c.toNat]
  else [0xd800 + (c.toNat - 0x10000) / 0x400, 0xdc00 + (c.toNat - 0x10000) % 0x400]

def jsonChar (c : Char) : String :=
  if c == '"' then "\\\""
  else if c == '\\' then "\\\\"
  else if c == '\n' then "\\n"
  else if c == '\r' then "\\r"
  else if c == '\t' then "\\t"
  else if c.toNat == 8 then "\\b"
  else if c.toNat == 12 then "\\f"
  else if 0x20 ≤ c.toNat && c.toNat < 0x7f then String.ofList [c]
  else String.join ((utf16Units c).map fun unit => "\\u" ++ hex 4 unit)

def jsonString (s : String) : String := "\"" ++ String.join (s.toList.map jsonChar) ++ "\""

end Conform.Text
