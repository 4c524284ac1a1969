import Abacus.Failure
import Abacus.Record

/-! From a text to its tree and its value, with a record of each stage that
succeeds. A text without an expression in it is reported as it was typed. -/

namespace Abacus

/-- A computation that may fail; what it logged stays either way. -/
abbrev Logged := ExceptT Failure (StateM (Array Record))

namespace Calculation

def log (record : Record) : Logged Unit := modify (·.push record)

def orFail {ε α : Type} (failure : ε → Failure) : Except ε α → Logged α
  | .ok a => return a
  | .error e => throw (failure e)

def asTyped (text : String) : SyntaxError → SyntaxError
  | .noExpression _ => .noExpression text
  | e => e

def tree (text : String) : Logged Expr := do
  let tokens ← orFail .lexical (Token.ofText text)
  log (.tokenized text tokens.length)
  let (outcome, final) := Grammar.run (some Grammar.maxDepth) tokens
  modify (· ++ final.fallbacks.map .fellBack)
  let tree ← orFail (.syntactic <| asTyped text ·) outcome
  log (.parsed text tree)
  return tree

def value (text : String) : Logged Int64 := do
  let tree ← tree text
  let value ← orFail .fault tree.value
  log (.valued tree value)
  return value

end Calculation

def Expr.ofText (text : String) : Except Failure Expr := ((Calculation.tree text).run #[]).1

def evaluate (text : String) : Except Failure Int64 := ((Calculation.value text).run #[]).1

end Abacus
