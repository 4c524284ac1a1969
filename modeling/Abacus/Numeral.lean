import Abacus.Checked
import Abacus.Text.Blank

/-! Numbers are written without leading zeros. They are read with any number of them
and an optional sign of either kind. -/

namespace Abacus.Numeral

def write (n : Int) : String :=
  String.ofList <|
    if n < 0 then '-' :: Nat.toDigits 10 n.natAbs else Nat.toDigits 10 n.natAbs

def unsigned? (text : List Char) : Option Nat :=
  if !text.isEmpty && text.all (· ∈ Text.digits) then some (Nat.ofDigitChars 10 text 0) else none

def signed? : List Char → Option Int
  | '-' :: text => (unsigned? text).map fun n => -(n : Int)
  | '+' :: text => (unsigned? text).map fun n => (n : Int)
  | text => (unsigned? text).map fun n => (n : Int)

/-- The 64-bit integer a numeral stands for, `none` if it is no numeral or
stands for a number out of range. -/
def read? (text : String) : Option Int64 := (signed? text.toList).bind Checked.ofInt?

end Abacus.Numeral
