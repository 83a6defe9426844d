import Conform.Text.Word

/-!
White space: the separators, tabulators, line ends and information separators.
-/
namespace Conform.Text

def blankBoundaries : List Nat := [
  9, 14, 28, 33, 133, 134, 160, 161, 5760, 5761, 8192, 8203, 8232, 8234, 8239, 8240, 8287, 8288,
  12288, 12289]

def isBlank (c : Char) : Bool := within blankBoundaries c.toNat

end Conform.Text
