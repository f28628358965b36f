import Scoresheet.Text.Blank
/-!
# Menu numbers

A number is a run of decimal digits, leading zeros included, after at most one plus sign. It has
to fit into 64 bits.
-/
namespace Scoresheet.Text

def decimalValue (digits : List Char) : Nat :=
  digits.foldl (fun n d => 10 * n + (d.toNat - '0'.toNat)) 0

/-- The number that a text without surrounding blanks writes. -/
def numberOfChars? (cs : List Char) : Option Nat :=
  let digits := match cs with
    | '+' :: rest => rest
    | rest => rest
  if !digits.isEmpty && digits.all Char.isDigit && decimalValue digits < Nat.pow 2 64 then
    some (decimalValue digits)
  else none

def number? (text : String) : Option Nat := numberOfChars? (trim text.toList)

end Scoresheet.Text
