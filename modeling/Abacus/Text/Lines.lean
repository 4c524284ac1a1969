/-!
# Lines

Input is cut after each newline while it is still bytes and decoded line by
line, so a malformed line leaves the earlier ones readable. Only a line that
ends in a newline gives up a carriage return, and only one. This is assumed of
the line editor, for input without backspaces that is not typed at a terminal.
-/

namespace Abacus.Text

/-- The pieces that end after each terminator; a rest without one is a piece
too, unless it is empty. -/
def chunks {α : Type} [DecidableEq α] (terminator : α) : List α → List (List α)
  | [] => []
  | x :: xs =>
    if x = terminator then [x] :: chunks terminator xs
    else match chunks terminator xs with
      | [] => [[x]]
      | chunk :: rest => (x :: chunk) :: rest

def unterminated (line : List Char) : List Char :=
  match line.reverse with
  | '\n' :: '\r' :: body => body.reverse
  | '\n' :: body => body.reverse
  | _ => line

def lines (text : String) : List String :=
  (chunks '\n' text.toList).map fun line => String.ofList (unterminated line)

/-- The line that these bytes spell, `none` if they are not UTF-8. -/
def decodeLine? (bytes : List UInt8) : Option String :=
  (String.fromUTF8? ⟨bytes.toArray⟩).map fun line => String.ofList (unterminated line.toList)

end Abacus.Text
