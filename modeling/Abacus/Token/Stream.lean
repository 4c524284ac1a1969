import Abacus.Cursor.Pattern
import Abacus.Token.Basic

/-! Blanks are skipped, then the patterns of `Token.rules` are tried in order. Where
none matches, the run up to the next blank is the error and ends the stream. -/

namespace Abacus

inductive LexicalError where
  | unrecognized (run : String)
deriving DecidableEq

namespace Token

def rules : List (Pattern × Kind) :=
  [(.digits, .number), (.oneOf ['+', '-'], .sumOp), (.oneOf ['*', '/', '%'], .termOp),
    (.oneOf ['^'], .powerOp), (.oneOf ['('], .openParen), (.oneOf [')'], .closeParen),
    (.word ['s', 'q', 'r', 't'], .sqrt)]

def scan : List (Pattern × Kind) → Cursor Char → Option Token × Cursor Char
  | [], c => (none, c)
  | (pattern, kind) :: rest, c =>
    match c.scan pattern with
    | (some lexeme, c) => (some ⟨kind, String.ofList lexeme⟩, c)
    | (none, c) => scan rest c

end Token

structure TokenStream where
  text : Cursor Char
  /-- An error was met, so nothing more comes. -/
  failed : Bool

namespace TokenStream

def ofString (text : String) : TokenStream := ⟨.ofList text.toList, false⟩

def scan (text : Cursor Char) : Option (Except LexicalError Token) × Cursor Char :=
  match Token.scan Token.rules text.skipBlanks.2 with
  | (some token, c) => (some (.ok token), c)
  | (none, c) =>
    match c.scan .solid with
    | (some run, c) => (some (.error (.unrecognized (String.ofList run))), c)
    | (none, c) => (none, c)

def next (s : TokenStream) : Option (Except LexicalError Token) × TokenStream :=
  if s.failed then (none, s)
  else match scan s.text with
    | (some (.error e), c) => (some (.error e), ⟨c, true⟩)
    | (answer, c) => (answer, ⟨c, false⟩)

def pull : Nat → TokenStream → List (Option (Except LexicalError Token))
  | 0, _ => []
  | n + 1, s => let (answer, s) := s.next; answer :: pull n s

def collect : Nat → TokenStream → Except LexicalError (List Token)
  | 0, _ => .ok []
  | bound + 1, s =>
    match s.next with
    | (none, _) => .ok []
    | (some (.error e), _) => .error e
    | (some (.ok token), s) => (collect bound s).map (token :: ·)

end TokenStream

/-- The tokens of a text. Each takes a character at least, so there are no
more of them than characters. -/
def Token.ofText (text : String) : Except LexicalError (List Token) :=
  (TokenStream.ofString text).collect (text.length + 1)

end Abacus
