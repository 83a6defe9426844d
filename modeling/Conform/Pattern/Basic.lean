import Conform.Text.Blank
import Conform.Text.Digit

/-!
Text patterns: characters, classes of characters, conditions on places, and what is built from them.
-/
namespace Conform

/-- A named class of characters. -/
inductive CharClass where
  | digit | word | blank
  deriving DecidableEq

def CharClass.holds : CharClass → Char → Bool
  | .digit, c => Text.isDigit c
  | .word, c => Text.isWord c
  | .blank, c => Text.isBlank c

/-- A member of a bracketed class. -/
inductive ClassItem where
  | range (low high : Char)
  | named (cls : CharClass) (negated : Bool)
  deriving DecidableEq

/-- Whether a member of a bracketed class covers a character. -/
def ClassItem.holds : ClassItem → Char → Bool
  | .range low high, c => low.toNat ≤ c.toNat && c.toNat ≤ high.toNat
  | .named cls negated, c => cls.holds c != negated

/-- A pattern. `finish` is the end of the text or the place before a final line end; `textEnd` is
the very end. -/
inductive Pattern where
  | empty
  | char (c : Char)
  | anyChar
  | oneOf (negated : Bool) (items : List ClassItem)
  | start
  | finish
  | textEnd
  | boundary (negated : Bool)
  | sequence (first second : Pattern)
  | either (first second : Pattern)
  | repeated (body : Pattern) (least : Nat) (most : Option Nat)

end Conform
