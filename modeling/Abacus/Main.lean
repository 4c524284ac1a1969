import Abacus.Program

/-! Reading, printing and files. What is read and printed is decided elsewhere, except
for the wording of help and of usage errors. -/

namespace Abacus

partial def readLine (input : IO.FS.Stream) (start : List UInt8) : IO (List UInt8) := do
  match (← input.read 1).data.toList with
  | [] => return start.reverse
  | byte :: _ =>
    if byte = 10 then return (byte :: start).reverse else readLine input (byte :: start)

def printOn (output : IO.FS.Stream) (text : String) : IO Unit := do
  output.putStr text
  output.flush

partial def talk (settings : Settings) (history : History) : IO (History × Ending) := do
  let output ← IO.getStdout
  printOn output settings.prompt
  match Turn.take settings history (← readLine (← IO.getStdin) []) with
  | .ended how => return (history, how)
  | .answered answer history =>
    printOn output answer
    talk settings history

def historyFile : HistoryPlace → IO (Option String)
  | .off => return none
  | .path name => return some name
  | .home => return (← IO.getEnv "HOME").map (· ++ "/.intcalc_history")

/-- A file that cannot be read counts as not there, nor can one that is not UTF-8. -/
def readArchive : Option String → IO Archive
  | none => return .off
  | some file => do
    try return .file (String.fromUTF8? (← IO.FS.readBinFile file))
    catch _ => return .file none

def writeArchive (file : Option String) (before after : Archive) : IO Unit := do
  if after = before then return
  match file, after with
  | some file, .file (some text) =>
    try IO.FS.writeFile file text
    catch _ => return
  | _, _ => return

def interact (invocation : Invocation) : IO Outcome := do
  let file ← historyFile invocation.history
  let before ← readArchive file
  let (history, how) ← talk invocation.settings before.load
  writeArchive file before (how.archive history before)
  return ⟨how.status, "", how.message⟩

def UsageError.message : UsageError → String
  | unknownOption argument => "unexpected argument '" ++ argument ++ "'"
  | missingValue option => "a value is required for '" ++ option ++ "'"
  | emptyValue option => "an empty value is not allowed for '" ++ option ++ "'"
  | repeatedOption option => "'" ++ option ++ "' cannot be used more than once"
  | conflict => "'--history' cannot be used with '--no-history'"

def helpLines : List String :=
  ["Integer calculator: + - * / % ^ ( ) sqrt()", "", "Usage: intcalc [OPTIONS] [EXPR]...", "",
    "Arguments:", "  [EXPR]...  Expression to evaluate once, skips the interactive prompt", "",
    "Options:",
    "      --prompt <PROMPT>    Prompt shown before each line [default: \"Expression: \"]",
    "      --history <HISTORY>  History file, defaults to ~/.intcalc_history",
    "      --no-history         Don't load or save line history",
    "      --tree               Print the parsed tree before the result",
    "  -h, --help               Print help"]

def Halt.outcome (halt : Halt) : Outcome :=
  match halt with
  | .help => ⟨halt.status, String.join (helpLines.map (· ++ "\n")), ""⟩
  | .misuse e => ⟨halt.status, "", "error: " ++ e.message ++ "\n"⟩

def outcome (arguments : List String) : IO Outcome := do
  match Invocation.ofArguments arguments with
  | .error halt => return halt.outcome
  | .ok invocation =>
    match invocation.once? with
    | some outcome => return outcome
    | none => interact invocation

end Abacus

def main (arguments : List String) : IO UInt32 := do
  let outcome ← Abacus.outcome arguments
  Abacus.printOn (← IO.getStdout) outcome.stdout
  Abacus.printOn (← IO.getStderr) outcome.stderr
  return outcome.status
