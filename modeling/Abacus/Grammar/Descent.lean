import Abacus.Cursor.Basic
import Abacus.Expr.Basic
import Abacus.Grammar.Error
import Abacus.Numeral
import Abacus.Token.Basic

/-!
# Expressions from tokens

Recursive descent over

    sum   := term  (sumOp sum)?
    term  := power (termOp term)?
    power := group (powerOp group)?
    group := sqrt openParen sum closeParen | openParen sum closeParen | number

so `+ - * / %` group to the right. A production answers `none`, having consumed
nothing, where it does not begin, and throws where it began and cannot go on.
Parentheses, square roots and right operands nest one level deeper; without a
limit, depth is only counted. The recursion runs on the number of tokens.
-/

namespace Abacus

namespace Grammar

def maxDepth : Nat := 128

/-- A left operand that no operator of this kind followed. -/
structure Fallback where
  expected : Token.Kind
  operand : Expr
deriving DecidableEq

structure State where
  tokens : Cursor Token
  depth : Nat
  /-- The greatest depth so far. -/
  deepest : Nat
  fallbacks : Array Fallback

def State.ofTokens (tokens : List Token) : State := ⟨.ofList tokens, 0, 0, #[]⟩

abbrev ParseM := ExceptT SyntaxError (StateM State)

/-- A production: the tree of what it consumed, or `none` where it does not begin. -/
abbrev Production := ParseM (Option Expr)

def mark : ParseM Nat := return (← get).tokens.mark

def restore (mark : Nat) : ParseM Unit :=
  modify fun s => { s with tokens := (s.tokens.restore mark).2 }

def accept (kind : Token.Kind) : ParseM (Option Token) :=
  modifyGet fun s =>
    let (token, tokens) := s.tokens.acceptIf (·.kind = kind)
    (token, { s with tokens })

def expect (kind : Token.Kind) (e : SyntaxError) : ParseM Unit := do
  if (← accept kind).isNone then throw e

def fallBack (fallback : Fallback) : ParseM Unit :=
  modify fun s => { s with fallbacks := s.fallbacks.push fallback }

def leftover : ParseM (List String) :=
  modifyGet fun s =>
    let (rest, tokens) := s.tokens.readAll
    (rest.map Token.lexeme, { s with tokens })

def checkDepth (limit : Option Nat) : ParseM Unit := do
  match limit with
  | some limit => if limit ≤ (← get).depth then throw (.tooDeep limit)
  | none => pure ()

/-- Run one level deeper, and come back up however it ends. -/
def deeper {α : Type} (body : ParseM α) : ParseM α :=
  ExceptT.mk fun s =>
    let depth := s.depth + 1
    let (answer, s) := body.run { s with depth, deepest := max s.deepest depth }
    (answer, { s with depth := s.depth - 1 })

def nested {α : Type} (limit : Option Nat) (body : ParseM α) : ParseM α := do
  checkDepth limit
  deeper body

/-- An operand and then `(op right)?`. An operator makes its right operand mandatory. -/
def chain (limit : Option Nat) (operand : Production) (kind : Token.Kind)
    (right : Production) : Production := do
  let start ← mark
  let some a ← operand | do restore start; return none
  let some op ← accept kind | do fallBack ⟨kind, a⟩; return some a
  let some b ← nested limit right | throw (.missingOperand op.lexeme)
  let some operator := Operator.ofSymbol? op.lexeme | throw (.unknownOperator op.lexeme)
  return some (.binary operator a b)

inductive Level where
  | group
  | power
  | term
  | sum
deriving DecidableEq

section Levels

/-! The productions, given those one level deeper. -/

variable (limit : Option Nat) (inner : Level → Production)

def group : Production := do
  if (← accept .sqrt).isSome then
    expect .openParen .missingRadicalParen
    let some operand ← nested limit (inner .sum) | throw .emptyRadical
    expect .closeParen .unclosedRadical
    return some (.sqrt operand)
  if (← accept .openParen).isSome then
    let some operand ← nested limit (inner .sum) | throw .emptyGroup
    expect .closeParen .unclosedGroup
    return some operand
  let some token ← accept .number | return none
  let some value := Numeral.read? token.lexeme | throw (.numberOutOfRange token.lexeme)
  return some (.num value)

def power : Production := chain limit (group limit inner) .powerOp (inner .group)

def term : Production := chain limit (power limit inner) .termOp (inner .term)

def sum : Production := chain limit (term limit inner) .sumOp (inner .sum)

end Levels

/-- The production of a level, with room for so many nested ones. -/
def production (limit : Option Nat) : Nat → Level → Production
  | 0, _ => return none
  | room + 1, .group => group limit (production limit room)
  | room + 1, .power => power limit (production limit room)
  | room + 1, .term => term limit (production limit room)
  | room + 1, .sum => sum limit (production limit room)

def sentence (limit : Option Nat) (room : Nat) : ParseM Expr := do
  let some tree ← production limit room .sum
    | throw (.noExpression (" ".intercalate (← leftover)))
  match ← leftover with
  | [] => return tree
  | lexemes => throw (.trailing lexemes)

/-- The outcome for a list of tokens and the state it ends in. -/
def run (limit : Option Nat) (tokens : List Token) : Except SyntaxError Expr × State :=
  (sentence limit (tokens.length + 1)).run (.ofTokens tokens)

end Grammar

def Expr.ofTokens (tokens : List Token) : Except SyntaxError Expr :=
  (Grammar.run (some Grammar.maxDepth) tokens).1

end Abacus
