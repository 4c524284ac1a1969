/-!
# Command line

Arguments are options, their values and the words of an expression, in any
order. An argument that begins with a hyphen is an option, except for a lone
hyphen, which is a word. After `--` all arguments are words. These are the
rules that are assumed of the argument parser; how it words its help and its
complaints is left open.
-/

namespace Abacus

inductive HistoryPlace where
  | home
  | path (name : String)
  | off
deriving DecidableEq

structure Invocation where
  words : List String
  prompt : String
  history : HistoryPlace
  showTree : Bool
deriving DecidableEq

inductive UsageError where
  | unknownOption (argument : String)
  | missingValue (option : String)
  | emptyValue (option : String)
  | repeatedOption (option : String)
  | conflict
deriving DecidableEq

/-- Why nothing is run. -/
inductive Halt where
  | help
  | misuse (e : UsageError)
deriving DecidableEq

def Halt.status : Halt → UInt32
  | help => 0
  | misuse _ => 2

namespace CommandLine

def defaultPrompt : String := "Expression: "

/-- Options with a value. -/
inductive Setting where
  | prompt
  | history
deriving DecidableEq

def Setting.name : Setting → String
  | prompt => "--prompt"
  | history => "--history"

inductive Expecting where
  | any
  | value (setting : Setting)
  | word
deriving DecidableEq

structure Draft where
  words : List String
  prompt : Option String
  history : Option String
  noHistory : Bool
  showTree : Bool
  expecting : Expecting

def Draft.empty : Draft := ⟨[], none, none, false, false, .any⟩

def beginsWithHyphen (argument : String) : Bool := argument.toList.head? = some '-'

/-- Letters behind the `h` would be options run together with it, which come too late. -/
def asksForHelp (argument : String) : Bool :=
  argument = "--help" || ['-', 'h'].isPrefixOf argument.toList

def atEquals (argument : String) : String × Option String :=
  let cs := argument.toList
  (String.ofList (cs.takeWhile (· ≠ '=')),
    match cs.dropWhile (· ≠ '=') with
    | [] => none
    | _ :: value => some (String.ofList value))

namespace Draft

def addWord (word : String) (draft : Draft) : Draft :=
  { draft with words := draft.words ++ [word] }

def set (setting : Setting) (value : String) (draft : Draft) : Except Halt Draft :=
  match setting with
  | .prompt =>
    if draft.prompt.isSome then .error (.misuse (.repeatedOption setting.name))
    else .ok { draft with prompt := some value, expecting := .any }
  | .history =>
    if draft.history.isSome then .error (.misuse (.repeatedOption setting.name))
    else if value = "" then .error (.misuse (.emptyValue setting.name))
    else .ok { draft with history := some value, expecting := .any }

def option (argument : String) (draft : Draft) : Except Halt Draft :=
  if asksForHelp argument then .error .help
  else match atEquals argument with
  | ("--prompt", some value) => draft.set .prompt value
  | ("--prompt", none) => .ok { draft with expecting := .value .prompt }
  | ("--history", some value) => draft.set .history value
  | ("--history", none) => .ok { draft with expecting := .value .history }
  | ("--tree", none) =>
    if draft.showTree then .error (.misuse (.repeatedOption argument))
    else .ok { draft with showTree := true }
  | ("--no-history", none) =>
    if draft.noHistory then .error (.misuse (.repeatedOption argument))
    else .ok { draft with noHistory := true }
  | _ => .error (.misuse (.unknownOption argument))

def take (draft : Draft) (argument : String) : Except Halt Draft :=
  match draft.expecting with
  | .word => .ok (draft.addWord argument)
  | .value setting =>
    if argument ≠ "-" ∧ beginsWithHyphen argument then
      .error (.misuse (.missingValue setting.name))
    else draft.set setting argument
  | .any =>
    if argument = "--" then .ok { draft with expecting := .word }
    else if argument ≠ "-" ∧ beginsWithHyphen argument then draft.option argument
    else .ok (draft.addWord argument)

def finish (draft : Draft) : Except Halt Invocation := do
  if let .value setting := draft.expecting then throw (.misuse (.missingValue setting.name))
  let history ← match draft.history, draft.noHistory with
    | some _, true => throw (.misuse .conflict)
    | some name, false => pure (.path name)
    | none, true => pure .off
    | none, false => pure .home
  return ⟨draft.words, draft.prompt.getD defaultPrompt, history, draft.showTree⟩

end Draft

end CommandLine

def Invocation.ofArguments (arguments : List String) : Except Halt Invocation := do
  (← arguments.foldlM CommandLine.Draft.take .empty).finish

end Abacus
