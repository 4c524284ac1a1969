/-! The tree of an expression. Parentheses leave no trace in it. -/

namespace Abacus

inductive Operator where
  | add
  | sub
  | mul
  | div
  | rem
  | pow
deriving DecidableEq

namespace Operator

def symbol : Operator → Char
  | add => '+'
  | sub => '-'
  | mul => '*'
  | div => '/'
  | rem => '%'
  | pow => '^'

def ofSymbol? : String → Option Operator
  | "+" => some add
  | "-" => some sub
  | "*" => some mul
  | "/" => some div
  | "%" => some rem
  | "^" => some pow
  | _ => none

theorem ofSymbol?_symbol (op : Operator) : ofSymbol? op.symbol.toString = some op := by
  cases op <;> decide

end Operator

inductive Expr where
  | num (value : Int64)
  | sqrt (operand : Expr)
  | binary (op : Operator) (left right : Expr)
deriving DecidableEq

end Abacus
