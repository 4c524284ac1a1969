import Abacus.Proofs.Conversation.Transcript

/-! The words on a command line are worked out as the text they make up. If that is
one line, a session shows the same for it between its two prompts. -/

namespace Abacus

theorem Outcome.once_of_shows {settings : Settings} (h : Shows settings text shown) :
    (∃ v, evaluate text = .ok v ∧ once settings text = ⟨0, shown, ""⟩) ∨
      ∃ f, evaluate text = .error f ∧ once settings text = ⟨1, "", shown⟩ := by
  cases h with
  | value hvalue hshow =>
    obtain ⟨e, htree⟩ := exists_ofText_of_evaluate hvalue
    refine .inl ⟨_, hvalue, ?_⟩
    simp [once, solve_eq_ok_iff.mpr ⟨htree, hvalue⟩, Settings.shown, hshow]
  | tree hvalue hshow htree =>
    refine .inl ⟨_, hvalue, ?_⟩
    simp [once, solve_eq_ok_iff.mpr ⟨htree, hvalue⟩, Settings.shown, hshow]
  | failure hfail =>
    refine .inr ⟨_, hfail, ?_⟩
    simp [once, solve_eq_error_iff.mpr hfail]

theorem Invocation.run_words {words : List String} (h : words ≠ []) (settings : Settings)
    (place : HistoryPlace) (archive : Archive) (input : List UInt8) :
    run ⟨words, settings.prompt, place, settings.showTree⟩ archive input =
      (.once settings (" ".intercalate words), archive) := by
  cases words with
  | nil => contradiction
  | cons word words => rfl

namespace Settings

theorem session_line (settings : Settings) (place : HistoryPlace) (archive : Archive)
    (hline : '\n' ∉ line.toList) (hcr : line.toList.getLast? ≠ some '\r') :
    (settings.session place archive (Text.encoded (line ++ "\n").toList)).1 =
      ⟨0, settings.prompt ++ settings.answer line ++ settings.prompt, ""⟩ := by
  rw [session_encoded, Text.lines_newline hline hcr]
  simp [turns]

/-- The words on a command line, if they make up one line, are answered as a
session answers that line: what the session shows between its prompts is
printed on the output for a value and on the error output for a failure, and it
is the value or the failure of a calculation of the line. -/
theorem run_words_as_line (settings : Settings) (words : List String) (hwords : words ≠ [])
    (hjoined : line = " ".intercalate words) (hline : '\n' ∉ line.toList)
    (hcr : line.toList.getLast? ≠ some '\r') :
    ∃ shown, Shows settings line shown ∧
      (∀ place archive,
        (settings.session place archive (Text.encoded (line ++ "\n").toList)).1 =
          ⟨0, settings.prompt ++ shown ++ settings.prompt, ""⟩) ∧
      ∀ prompt place archive input, ∃ outcome,
        Invocation.run ⟨words, prompt, place, settings.showTree⟩ archive input =
          (outcome, archive) ∧
        ((∃ v, evaluate line = .ok v ∧ outcome = ⟨0, shown, ""⟩) ∨
          ∃ f, evaluate line = .error f ∧ outcome = ⟨1, "", shown⟩) := by
  refine ⟨settings.answer line, shows_answer settings line, fun place archive => ?_,
    fun prompt place archive input => ?_⟩
  · exact session_line settings place archive hline hcr
  · rw [Invocation.run_words hwords ⟨prompt, settings.showTree⟩ place archive input, ← hjoined]
    -- the answer does not depend on the prompt
    exact ⟨_, rfl, Outcome.once_of_shows (shows_answer ⟨prompt, settings.showTree⟩ line)⟩

theorem run_words_as_line_of_failure :
    '\n' ∉ "2^ (0-1".toList ∧ "2^ (0-1".toList.getLast? ≠ some '\r' ∧
      (session ⟨"> ", true⟩ .off .off (Text.encoded "2^ (0-1\n".toList)).1 =
        ⟨0, "> Expected close bracket of group\n> ", ""⟩ ∧
      Invocation.run ⟨["2^", "(0-1"], "", .home, true⟩ (.file none) [0xff] =
        (⟨1, "", "Expected close bracket of group\n"⟩, .file none) := by
  have hline : '\n' ∉ "2^ (0-1".toList := by decide +kernel
  have hcr : "2^ (0-1".toList.getLast? ≠ some '\r' := by decide +kernel
  obtain ⟨shown, -, hsession, honce⟩ := run_words_as_line ⟨"> ", true⟩ ["2^", "(0-1"] (by simp)
    rfl hline hcr
  have hshown : "> " ++ shown ++ "> " = "> " ++ "Expected close bracket of group\n" ++ "> " := by
    have hprinted : (session ⟨"> ", true⟩ .off .off (Text.encoded "2^ (0-1\n".toList)).1.stdout =
        "> " ++ "Expected close bracket of group\n" ++ "> " := by decide +kernel
    exact (congrArg Outcome.stdout (hsession .off .off)).symm.trans hprinted
  rw [String.append_left_inj, String.append_right_inj] at hshown
  subst hshown
  obtain ⟨outcome, hrun, ⟨v, hvalue, -⟩ | ⟨f, -, rfl⟩⟩ := honce "" .home (.file none) [0xff]
  · have hfails : evaluate "2^ (0-1" = .error (.syntactic .unclosedGroup) := by decide +kernel
    cases hfails.symm.trans hvalue
  · exact ⟨hline, hcr, hsession .off .off, hrun⟩

end Settings

end Abacus
