/-! What can be wrong with a list of tokens. An error about a token has its lexeme. -/

namespace Abacus

inductive SyntaxError where
  | missingOperand (operator : String)
  | missingRadicalParen
  | emptyRadical
  | unclosedRadical
  | emptyGroup
  | unclosedGroup
  | trailing (lexemes : List String)
  /-- Nothing to begin an expression with. -/
  | noExpression (text : String)
  | numberOutOfRange (numeral : String)
  | tooDeep (limit : Nat)
  | unknownOperator (operator : String)
deriving DecidableEq

end Abacus
