import Abacus.Cursor.Basic
import Abacus.Text.Blank

/-! What a lexeme can look like at the cursor. Matching is all or nothing: a hit cuts
out everything since the anchor, a miss leaves the cursor in place. -/

namespace Abacus

inductive Pattern where
  | digits
  | oneOf (set : List Char)
  | word (chars : List Char)
  /-- The longest run of characters other than blanks, at least one. -/
  | solid
deriving DecidableEq

namespace Cursor

def advance : Pattern → Cursor Char → Bool × Cursor Char
  | .digits, c => c.skipAll Text.digits
  | .oneOf set, c => let (x, c) := c.acceptAny set; (x.isSome, c)
  | .word chars, c => c.acceptWord chars
  | .solid, c => c.skipUntil Text.blanks

def scan (pattern : Pattern) (c : Cursor Char) : Option (List Char) × Cursor Char :=
  match c.advance pattern with
  | (false, c) => (none, c)
  | (true, c) => let (lexeme, c) := c.cut; (some lexeme, c)

/-- Drop what was collected and any blanks that follow; true if there were blanks. -/
def skipBlanks (c : Cursor Char) : Bool × Cursor Char :=
  let (skipped, c) := c.skipAll Text.blanks
  (skipped, c.discard)

end Cursor

end Abacus
