/-! A text as one line of a file. Reading is strict: a backslash before anything but a
backslash or an `n` is no escaped line at all. -/

namespace Abacus.Text

def escaped : List Char → List Char
  | [] => []
  | c :: rest =>
    if c = '\\' then '\\' :: '\\' :: escaped rest
    else if c = '\n' then '\\' :: 'n' :: escaped rest
    else c :: escaped rest

def unescaped? : List Char → Option (List Char)
  | [] => some []
  | '\\' :: 'n' :: rest => (unescaped? rest).map ('\n' :: ·)
  | '\\' :: '\\' :: rest => (unescaped? rest).map ('\\' :: ·)
  | '\\' :: _ => none
  | c :: rest => (unescaped? rest).map (c :: ·)

theorem unescaped?_escaped (text : List Char) : unescaped? (escaped text) = some text := by
  induction text with
  | nil => rfl
  | cons c rest ih =>
    by_cases hb : c = '\\'
    · subst hb; simp [escaped, unescaped?, ih]
    · by_cases hn : c = '\n'
      · subst hn; simp [escaped, unescaped?, ih]
      · simp [escaped, unescaped?, hb, hn, ih]

end Abacus.Text
