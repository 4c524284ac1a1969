import Abacus.Cursor.Pattern

/-! A run of the cursor is a list of steps with the reply to each. Laws that hold
after any history are stated over such lists, with arbitrary arguments. -/

namespace Abacus.Cursor

inductive Step (α : Type) where
  | next
  | peek
  | mark
  | restore (place : Nat)
  | accept (item : α)
  | acceptAny (set : List α)
  | acceptIf (p : α → Bool)
  | skipAll (set : List α)
  | skipUntil (set : List α)
  | view
  | discard
  | cut
  | read (count : Nat)
  | readAll

inductive TextStep where
  | basic (step : Step Char)
  | skipBlanks
  | scan (pattern : Pattern)

inductive Reply (α : Type) where
  | done
  | item (found : Option α)
  | flag (holds : Bool)
  | place (mark : Nat)
  | items (list : List α)
  | lexeme (found : Option (List α))
deriving DecidableEq

def Step.run {α : Type} [DecidableEq α] : Step α → Cursor α → Reply α × Cursor α
  | .next, c => c.next.map .item id
  | .peek, c => c.peek.map .item id
  | .mark, c => (.place c.mark, c)
  | .restore place, c => (c.restore place).map .flag id
  | .accept item, c => (c.accept item).map .item id
  | .acceptAny set, c => (c.acceptAny set).map .item id
  | .acceptIf p, c => (c.acceptIf p).map .item id
  | .skipAll set, c => (c.skipAll set).map .flag id
  | .skipUntil set, c => (c.skipUntil set).map .flag id
  | .view, c => (.items c.view, c)
  | .discard, c => (.done, c.discard)
  | .cut, c => c.cut.map .items id
  | .read count, c => (c.read count).map .items id
  | .readAll, c => c.readAll.map .items id

def TextStep.run : TextStep → Cursor Char → Reply Char × Cursor Char
  | .basic step, c => step.run c
  | .skipBlanks, c => c.skipBlanks.map .flag id
  | .scan pattern, c => (c.scan pattern).map .lexeme id

/-- What can be seen of a step: its reply, and the place and view it leaves. -/
structure Observation (α : Type) where
  reply : Reply α
  mark : Nat
  view : List α
deriving DecidableEq

def observe {α σ : Type} (run : σ → Cursor α → Reply α × Cursor α) :
    List σ → Cursor α → List (Observation α) × Cursor α
  | [], c => ([], c)
  | step :: steps, c =>
    let (reply, c) := run step c
    let (later, final) := observe run steps c
    (⟨reply, c.mark, c.view⟩ :: later, final)

end Abacus.Cursor
