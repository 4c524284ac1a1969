import Abacus.Proofs.Conversation.Transcript

/-!
# Input that is not text

Input that is not UTF-8 has a first line that is not: what comes before is a
text whose last line has ended (`Text.not_isUtf8_iff`). A session breaks off
there, and its history is lost (`session_breaks_off`).
-/

namespace Abacus

namespace Text

def IsUtf8 (bytes : List UInt8) : Prop := (ByteArray.mk bytes.toArray).IsValidUTF8

instance : DecidablePred IsUtf8 := fun bytes =>
  inferInstanceAs (Decidable (ByteArray.mk bytes.toArray).IsValidUTF8)

theorem isUtf8_iff : IsUtf8 bytes ↔ ∃ text, bytes = encoded text := by
  constructor
  · rintro ⟨text, htext⟩
    rw [← mk_encoded, ByteArray.mk.injEq, Array.mk.injEq] at htext
    exact ⟨text, htext⟩
  · rintro ⟨text, rfl⟩
    exact ⟨text, mk_encoded text⟩

theorem isUtf8_encoded (text : List Char) : IsUtf8 (encoded text) := isUtf8_iff.mpr ⟨text, rfl⟩

theorem decodeLine?_eq_none_iff : decodeLine? bytes = none ↔ ¬ IsUtf8 bytes := by
  rw [decodeLine?, Option.map_eq_none_iff, String.fromUTF8?, dite_eq_right_iff]
  simp [IsUtf8]

theorem Terminated.of_encoded (h : Terminated 10 (encoded text)) : Terminated '\n' text := by
  rcases List.eq_nil_or_concat text with rfl | ⟨front, c, rfl⟩
  · exact .inl rfl
  obtain h | ⟨body, h⟩ := h
  · simp [encoded_eq_nil_iff] at h
  have hlast : (10 : UInt8) ∈ String.utf8EncodeChar c := by
    have hne := String.utf8EncodeChar_ne_nil (c := c)
    have hend : (String.utf8EncodeChar c).getLast? = some 10 := by
      have := congrArg List.getLast? h
      simpa [encoded, List.getLast?_append, List.getLast?_eq_some_getLast hne] using this
    exact List.mem_of_getLast? hend
  obtain rfl := newline_mem_utf8EncodeChar.mp hlast
  exact .inr ⟨front, List.concat_eq_append⟩

theorem Terminated.encoded (h : Terminated '\n' text) : Terminated 10 (encoded text) := by
  obtain rfl | ⟨body, rfl⟩ := h
  · exact .inl rfl
  · exact .inr ⟨Text.encoded body, by rw [encoded_append]; rfl⟩

theorem Terminated.append {xs ys : List α} (hx : Terminated terminator xs)
    (hy : Terminated terminator ys) : Terminated terminator (xs ++ ys) := by
  obtain rfl | ⟨body, rfl⟩ := hy
  · simpa using hx
  · exact .inr ⟨xs ++ body, by simp⟩

/-- The bytes are those of a text up to the end of a line, and the line after
it, with its newline if it has one, is not UTF-8. -/
structure BreaksOff (bytes : List UInt8) (before : String) (line rest : List UInt8) : Prop where
  parts : bytes = encoded before.toList ++ (line ++ rest)
  ended : Terminated '\n' before.toList
  one_line : 10 ∉ line ∧ rest = [] ∨ ∃ body, 10 ∉ body ∧ line = body ++ [10]
  garbled : ¬ IsUtf8 line

theorem BreaksOff.after (h : BreaksOff bytes before line rest) (first : String)
    (hfirst : Terminated '\n' first.toList) :
    BreaksOff (encoded first.toList ++ bytes) (first ++ before) line rest where
  parts := by rw [h.parts, String.toList_append, encoded_append, List.append_assoc]
  ended := by rw [String.toList_append]; exact hfirst.append h.ended
  one_line := h.one_line
  garbled := h.garbled

theorem exists_breaksOff (h : ¬ IsUtf8 bytes) :
    ∃ before line rest, BreaksOff bytes before line rest := by
  induction bytes using chunk_induction (10 : UInt8) with
  | nil => exact absurd (isUtf8_encoded []) h
  | last line hline _ =>
    exact ⟨"", line, [], ⟨by simp [encoded], .inl rfl, .inl ⟨hline, rfl⟩, h⟩⟩
  | line body rest hbody ih =>
    by_cases hfirst : IsUtf8 (body ++ [10])
    · obtain ⟨text, htext⟩ := isUtf8_iff.mp hfirst
      have hended : Terminated '\n' text := Terminated.of_encoded (.inr ⟨body, htext.symm⟩)
      have hrest : ¬ IsUtf8 rest := by
        intro hrest
        obtain ⟨more, rfl⟩ := isUtf8_iff.mp hrest
        refine h (isUtf8_iff.mpr ⟨text ++ more, ?_⟩)
        rw [encoded_append, ← htext, List.append_assoc, List.singleton_append]
      obtain ⟨before, line, rest', hbreak⟩ := ih hrest
      have hafter := hbreak.after (String.ofList text) (by simpa using hended)
      rw [String.toList_ofList, ← htext, List.append_assoc, List.singleton_append] at hafter
      exact ⟨_, line, rest', hafter⟩
    · exact ⟨"", body ++ [10], rest,
        ⟨by simp [encoded], .inl rfl, .inr ⟨body, hbody, rfl⟩, hfirst⟩⟩

namespace BreaksOff

theorem line_ne_nil (h : BreaksOff bytes before line rest) : line ≠ [] := by
  rintro rfl
  exact h.garbled (isUtf8_encoded [])

theorem chunks_eq (h : BreaksOff bytes before line rest) :
    chunks 10 bytes = chunks 10 (encoded before.toList) ++ line :: chunks 10 rest := by
  rw [h.parts, h.ended.encoded.chunks_append]
  congr 1
  obtain ⟨hline, rfl⟩ | ⟨body, hbody, rfl⟩ := h.one_line
  · rw [List.append_nil, chunks_of_not_mem hline h.line_ne_nil]
    rfl
  · rw [List.append_assoc, List.singleton_append, chunks_append_terminator hbody]

end BreaksOff

theorem not_isUtf8_iff : ¬ IsUtf8 bytes ↔ ∃ before line rest, BreaksOff bytes before line rest := by
  refine ⟨exists_breaksOff, ?_⟩
  rintro ⟨before, line, rest, h⟩ hbytes
  obtain ⟨text, rfl⟩ := isUtf8_iff.mp hbytes
  have hmem : line ∈ (chunks '\n' text).map encoded := by
    rw [← chunks_encoded, h.chunks_eq]
    simp
  obtain ⟨chunk, -, rfl⟩ := List.mem_map.mp hmem
  exact h.garbled (isUtf8_encoded chunk)

end Text

theorem Conversation.run_breaksOff (settings : Settings)
    (h : Text.BreaksOff input before line rest) (history : History) :
    run settings (Text.chunks 10 input) history =
      ⟨settings.turns (Text.lines before) ++ [settings.prompt],
        history.recordAll (Text.lines before), .notText⟩ := by
  have hline : Text.decodeLine? line = none := Text.decodeLine?_eq_none_iff.mpr h.garbled
  rw [h.chunks_eq, run_append settings (Text.chunks_spell before), run, Turn.take,
    if_neg (by simpa using h.line_ne_nil), hline]

namespace Settings

/-- Input that is not UTF-8 has a first line that is not. A session on it ends
there, having shown exactly what a session on the text before shows, which
answers the lines of that text and nothing else. Whatever was recorded by then,
the archive is left as it was. -/
theorem session_breaks_off (settings : Settings) (input : List UInt8)
    (hinput : ¬ Text.IsUtf8 input) :
    (∃ before line rest, Text.BreaksOff input before line rest) ∧
    ∀ before line rest, Text.BreaksOff input before line rest → ∀ place archive,
      let outcome := (settings.session place archive (Text.encoded before.toList)).1
      settings.session place archive input =
        (⟨1, outcome.stdout, Ending.notText.message⟩, archive) ∧
      ∃ lines, Text.Splits before.toList lines ∧ Transcript settings lines outcome.stdout := by
  refine ⟨Text.not_isUtf8_iff.mp hinput, fun before line rest hbreak place archive => ?_⟩
  simp only [session_encoded, Text.splits_iff, exists_eq_left, transcript_iff, and_true]
  change converse settings archive input = _
  rw [converse, Conversation.run_breaksOff settings hbreak]
  simp [Ending.status, Ending.archive]

theorem session_breaks_off_inside_character :
    let input : List UInt8 := Text.encoded "1+1\n".toList ++ ([0x31, 0xe2, 0x82, 10] ++ [0x32, 10])
    let archive := Archive.file (some "#V2\n1+1\n7\n")
    ¬ Text.IsUtf8 input ∧ Text.BreaksOff input "1+1\n" [0x31, 0xe2, 0x82, 10] [0x32, 10] ∧
      session ⟨"> ", false⟩ .home archive input =
        (⟨1, "> 2\n> ", Ending.notText.message⟩, archive) := by
  intro input archive
  have hbreak : Text.BreaksOff input "1+1\n" [0x31, 0xe2, 0x82, 10] [0x32, 10] :=
    ⟨rfl, .inr ⟨"1+1".toList, by decide +kernel⟩,
      .inr ⟨[0x31, 0xe2, 0x82], by decide, rfl⟩, by decide +kernel⟩
  have hinput : ¬ Text.IsUtf8 input := Text.not_isUtf8_iff.mpr ⟨_, _, _, hbreak⟩
  have hshown : (session ⟨"> ", false⟩ .home archive (Text.encoded "1+1\n".toList)).1.stdout =
      "> 2\n> " := by decide +kernel
  obtain ⟨-, hends⟩ := session_breaks_off ⟨"> ", false⟩ input hinput
  obtain ⟨hsession, -⟩ := hends _ _ _ hbreak .home archive
  exact ⟨hinput, hbreak, hshown ▸ hsession⟩

end Settings

end Abacus
