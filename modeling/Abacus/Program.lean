import Abacus.CommandLine
import Abacus.Conversation

/-! An expression on the command line is worked out once; without one, the input is
answered line by line. -/

namespace Abacus

structure Outcome where
  status : UInt32
  stdout : String
  stderr : String
deriving DecidableEq

def Invocation.settings (invocation : Invocation) : Settings :=
  ⟨invocation.prompt, invocation.showTree⟩

namespace Outcome

def once (settings : Settings) (text : String) : Outcome :=
  match solve text with
  | .ok (tree, value) => ⟨0, settings.shown tree value, ""⟩
  | .error e => ⟨1, "", e.message ++ "\n"⟩

end Outcome

namespace Ending

def status : Ending → UInt32
  | endOfInput => 0
  | notText => 1

def message : Ending → String
  | endOfInput => ""
  | notText =>
    "intcalc: stream did not contain valid UTF-8: stream did not contain valid UTF-8\n"

/-- The archive after a run: only the end of the input has its history saved. -/
def archive (ending : Ending) (history : History) (before : Archive) : Archive :=
  match ending with
  | endOfInput => before.save history
  | notText => before

end Ending

def converse (settings : Settings) (archive : Archive) (input : List UInt8) : Outcome × Archive :=
  let c := Conversation.run settings (Text.chunks 10 input) archive.load
  (⟨c.ending.status, String.join c.output, c.ending.message⟩,
    c.ending.archive c.history archive)

namespace Invocation

def once? (invocation : Invocation) : Option Outcome :=
  match invocation.words with
  | [] => none
  | words => some (.once invocation.settings (" ".intercalate words))

def run (invocation : Invocation) (archive : Archive) (input : List UInt8) : Outcome × Archive :=
  match invocation.once? with
  | some outcome => (outcome, archive)
  | none => converse invocation.settings archive input

end Invocation

end Abacus
