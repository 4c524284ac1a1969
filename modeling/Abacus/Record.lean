import Abacus.Expr.Written
import Abacus.Grammar.Descent
import Abacus.Text.Quoted

/-! What a calculation leaves in the log. A record is made text only where it is shown. -/

namespace Abacus

inductive Record where
  | tokenized (text : String) (count : Nat)
  | fellBack (fallback : Grammar.Fallback)
  | parsed (text : String) (tree : Expr)
  | valued (tree : Expr) (value : Int64)
deriving DecidableEq

namespace Record

inductive Level where
  | debug
  | trace
deriving DecidableEq

inductive Stage where
  | tokenizing
  | parsing
  | calculating
deriving DecidableEq

def level : Record → Level
  | fellBack _ => .trace
  | _ => .debug

def stage : Record → Stage
  | tokenized .. => .tokenizing
  | fellBack _ => .parsing
  | parsed .. | valued .. => .calculating

def message : Record → String
  | tokenized text count =>
    "tokenized " ++ Text.quoted text ++ " into " ++ Numeral.write count ++ " tokens"
  | fellBack ⟨expected, operand⟩ =>
    "no " ++ expected.name ++ " after " ++ operand.written ++ ", falling back to operand"
  | parsed text tree => "parsed " ++ Text.quoted text ++ " as " ++ tree.written
  | valued tree value => tree.written ++ " = " ++ Numeral.write value.toInt

end Record

end Abacus
