/-! The kind of a token decides where it may stand. What it stands for is read from its
lexeme, and nothing here forces the two to agree. -/

namespace Abacus

inductive Token.Kind where
  | number
  | openParen
  | closeParen
  | sumOp
  | termOp
  | powerOp
  | sqrt
deriving DecidableEq

def Token.Kind.name : Token.Kind → String
  | number => "Number"
  | openParen => "OpenParen"
  | closeParen => "CloseParen"
  | sumOp => "SumOp"
  | termOp => "TermOp"
  | powerOp => "PowerOp"
  | sqrt => "Sqrt"

structure Token where
  kind : Token.Kind
  lexeme : String
deriving DecidableEq

end Abacus
