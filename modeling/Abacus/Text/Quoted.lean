/-!
# Quoted text

A text between double quotes on one line of a log. Escapes are those of ASCII:
what is quoted has been cut into tokens, and then it has no other characters
(`Calculation.quoted_ascii`).
-/

namespace Abacus.Text

def shortEscapes : List (Char × Char) :=
  [('\t', 't'), ('\n', 'n'), ('\r', 'r'), ('\x00', '0'), ('"', '"'), ('\\', '\\')]

def isControl (c : Char) : Bool := c.toNat < 0x20 || c.toNat = 0x7f

/-- A control character without a short escape is shown by its code point. -/
def quotedChar (c : Char) : List Char :=
  match shortEscapes.lookup c with
  | some letter => ['\\', letter]
  | none =>
    if isControl c then '\\' :: 'u' :: '\x7b' :: (Nat.toDigits 16 c.toNat ++ ['\x7d'])
    else [c]

def quoted (text : String) : String :=
  String.ofList ('"' :: (text.toList.flatMap quotedChar ++ ['"']))

end Abacus.Text
