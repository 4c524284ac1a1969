import Abacus.Calculation
import Abacus.History

/-! Lines in, answers out. Each line is answered on its own. The conversation ends
with the input, or at the first line that is not UTF-8. -/

namespace Abacus

structure Settings where
  prompt : String
  showTree : Bool
deriving DecidableEq

def solve (text : String) : Except Failure (Expr × Int64) := do
  let tree ← Expr.ofText text
  let value ← tree.value.mapError .fault
  return (tree, value)

namespace Settings

def shown (settings : Settings) (tree : Expr) (value : Int64) : String :=
  (if settings.showTree then tree.written ++ "\n" else "") ++ Numeral.write value.toInt ++ "\n"

def answer (settings : Settings) (line : String) : String :=
  match solve line with
  | .ok (tree, value) => settings.shown tree value
  | .error e => e.message ++ "\n"

end Settings

inductive Ending where
  | endOfInput
  | notText
deriving DecidableEq

inductive Turn where
  | answered (answer : String) (history : History)
  | ended (how : Ending)
deriving DecidableEq

/-- The turn for the next line of input, which is empty at the end of it. -/
def Turn.take (settings : Settings) (history : History) (line : List UInt8) : Turn :=
  if line.isEmpty then .ended .endOfInput
  else match Text.decodeLine? line with
    | some line => .answered (settings.answer line) (history.record line)
    | none => .ended .notText

structure Conversation where
  output : List String
  history : History
  ending : Ending
deriving DecidableEq

def Conversation.run (settings : Settings) : List (List UInt8) → History → Conversation
  | [], history => ⟨[settings.prompt], history, .endOfInput⟩
  | line :: lines, history =>
    match Turn.take settings history line with
    | .ended how => ⟨[settings.prompt], history, how⟩
    | .answered answer history =>
      let later := run settings lines history
      { later with output := settings.prompt :: answer :: later.output }

end Abacus
