import Abacus.Expr.Basic
import Abacus.Numeral

/-! Every binary operator is written in parentheses, so a text needs no precedence. -/

namespace Abacus.Expr

def chars : Expr → List Char
  | .num value => (Numeral.write value.toInt).toList
  | .sqrt operand => "sqrt(".toList ++ operand.chars ++ [')']
  | .binary op left right =>
    '(' :: (left.chars ++ ' ' :: op.symbol :: ' ' :: (right.chars ++ [')']))

def written (e : Expr) : String := String.ofList e.chars

end Abacus.Expr
