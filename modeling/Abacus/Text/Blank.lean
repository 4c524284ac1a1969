/-! White space between tokens is ASCII only. Whether a line has anything on it at all
is decided by the Unicode property `White_Space`. -/

namespace Abacus.Text

def blanks : List Char := [' ', '\t', '\n', '\r', '\x0b', '\x0c']

def digits : List Char := ['0', '1', '2', '3', '4', '5', '6', '7', '8', '9']

/-- The code points with the Unicode property `White_Space`, as inclusive ranges. -/
def whiteRanges : List (Nat × Nat) :=
  [(0x09, 0x0d), (0x20, 0x20), (0x85, 0x85), (0xa0, 0xa0), (0x1680, 0x1680), (0x2000, 0x200a),
    (0x2028, 0x2029), (0x202f, 0x202f), (0x205f, 0x205f), (0x3000, 0x3000)]

def isWhite (c : Char) : Bool :=
  whiteRanges.any fun (first, last) => first ≤ c.toNat && c.toNat ≤ last

def isVacant (line : String) : Bool := line.toList.all isWhite

end Abacus.Text
