import Abacus.Expr.Value
import Abacus.Grammar.Error
import Abacus.Numeral
import Abacus.Token.Stream

/-! Why a text has no value. Each failure is shown by its own message. -/

namespace Abacus

def LexicalError.message : LexicalError → String
  | unrecognized run => "Undefined token found <" ++ run ++ ">"

def SyntaxError.message : SyntaxError → String
  | missingOperand operator => "Expected expression after \"" ++ operator ++ "\""
  | missingRadicalParen => "Expected open bracket after square root"
  | emptyRadical => "Expected expression inside of square root"
  | unclosedRadical => "Expected close bracket after expression"
  | emptyGroup => "Expected expression inside of group"
  | unclosedGroup => "Expected close bracket of group"
  | trailing lexemes => "Wrong expression \"" ++ " ".intercalate lexemes ++ "\""
  | noExpression text => "Wrong expression \"" ++ text ++ "\""
  | numberOutOfRange numeral => "Number out of range <" ++ numeral ++ ">"
  | tooDeep limit => "Expression nested deeper than " ++ Numeral.write limit ++ " levels"
  | unknownOperator operator => "Unexpected operator <" ++ operator ++ ">"

def Fault.message : Fault → String
  | divisionByZero => "Division by zero"
  | negativeRadicand operand => "Square root of negative number " ++ Numeral.write operand.toInt
  | negativeExponent exponent => "Negative exponent " ++ Numeral.write exponent.toInt
  | overflow op => "Integer overflow in " ++ op.symbol.toString

inductive Failure where
  | lexical (e : LexicalError)
  | syntactic (e : SyntaxError)
  | fault (e : Fault)
deriving DecidableEq

def Failure.message : Failure → String
  | lexical e => e.message
  | syntactic e => e.message
  | fault e => e.message

end Abacus
