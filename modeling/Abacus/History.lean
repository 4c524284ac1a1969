import Abacus.Text.Blank
import Abacus.Text.Escaped
import Abacus.Text.Lines

/-!
# Line history

The lines given so far, oldest first. Those with nothing on them are not
recorded. The rest is assumed of the line editor that keeps the history: a line
that repeats the one before is left out, the latest hundred are kept, and in a
file they stand under a heading, an escaped line each. A file without the
heading has them as they are.
-/

namespace Abacus

structure History where
  entries : List String
  /-- Something was recorded since the entries were read. -/
  changed : Bool
deriving DecidableEq

namespace History

def capacity : Nat := 100

def heading : String := "#V2"

def empty : History := ⟨[], false⟩

/-- The list with one more entry, unless that is empty or repeats the last. -/
def push (entries : List String) (line : String) : List String :=
  if line = "" ∨ entries.getLast? = some line then entries
  else (entries ++ [line]).drop (entries.length + 1 - capacity)

def record (line : String) (history : History) : History :=
  if Text.isVacant line ∨ history.entries.getLast? = some line then history
  else ⟨push history.entries line, true⟩

def written (entries : List String) : String :=
  String.join <|
    (heading :: entries.map fun entry => String.ofList (Text.escaped entry.toList)).map (· ++ "\n")

/-- The entry on a line under the heading. A line that is not escaped as it
should be is taken as it is. -/
def entryOf (line : String) : String :=
  match Text.unescaped? line.toList with
  | some entry => String.ofList entry
  | none => line

def read (text : String) : List String :=
  match Text.lines text with
  | first :: rest =>
    if first = heading then (rest.map entryOf).foldl push [] else (first :: rest).foldl push []
  | [] => []

end History

/-- Where the history of a run is kept. A file that is not UTF-8 is not considered. -/
inductive Archive where
  | off
  | unreachable
  | file (text : Option String)
deriving DecidableEq

namespace Archive

def load : Archive → History
  | .file (some text) => ⟨History.read text, false⟩
  | _ => .empty

def save (history : History) : Archive → Archive
  | .file text => .file (if history.changed then some (History.written history.entries) else text)
  | archive => archive

end Archive

end Abacus
