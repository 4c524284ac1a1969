import Abacus.Proofs.Conversation.RunLaws

/-! Nothing is carried from one line of a session to another, so the output on two
texts in a row is the output on each (`session_transcript`). -/

namespace Abacus

/-- What a calculation of the line shows. -/
inductive Shows (settings : Settings) (line : String) : String → Prop
  | value : evaluate line = .ok v → settings.showTree = false →
      Shows settings line (Numeral.write v.toInt ++ "\n")
  | tree : evaluate line = .ok v → settings.showTree = true → Expr.ofText line = .ok e →
      Shows settings line (e.written ++ "\n" ++ Numeral.write v.toInt ++ "\n")
  | failure : evaluate line = .error e → Shows settings line (e.message ++ "\n")

inductive Transcript (settings : Settings) : List String → String → Prop
  | done : Transcript settings [] settings.prompt
  | turn : Shows settings line answer → Transcript settings lines rest →
      Transcript settings (line :: lines) (settings.prompt ++ answer ++ rest)

theorem answer_of_shows {settings : Settings} (h : Shows settings line answer) :
    settings.answer line = answer := by
  cases h with
  | value hvalue hshow =>
    obtain ⟨e, htree⟩ := exists_ofText_of_evaluate hvalue
    simp [Settings.answer, solve_eq_ok_iff.mpr ⟨htree, hvalue⟩, Settings.shown, hshow]
  | tree hvalue hshow htree =>
    simp [Settings.answer, solve_eq_ok_iff.mpr ⟨htree, hvalue⟩, Settings.shown, hshow]
  | failure hfail => simp [Settings.answer, solve_eq_error_iff.mpr hfail]

theorem shows_answer (settings : Settings) (line : String) :
    Shows settings line (settings.answer line) := by
  unfold Settings.answer
  cases hsolve : solve line with
  | error f => exact .failure (solve_eq_error_iff.mp hsolve)
  | ok solution =>
    obtain ⟨htree, hvalue⟩ := solve_eq_ok_iff.mp hsolve
    cases hshow : settings.showTree with
    | false => simpa [Settings.shown, hshow] using Shows.value hvalue hshow
    | true => simpa [Settings.shown, hshow] using Shows.tree hvalue hshow htree

theorem transcript_iff {settings : Settings} :
    Transcript settings lines shown ↔
      String.join (settings.turns lines) ++ settings.prompt = shown := by
  induction lines generalizing shown with
  | nil =>
    constructor
    · rintro ⟨⟩
      simp [Settings.turns]
    · rintro rfl
      simpa [Settings.turns] using Transcript.done
  | cons line lines ih =>
    constructor
    · rintro (_ | ⟨hline, hlines⟩)
      simp [Settings.turns, ← ih.mp hlines, answer_of_shows hline, String.append_assoc]
    · rintro rfl
      have hturn := Transcript.turn (shows_answer settings line) (ih.mpr rfl)
      simpa [Settings.turns, String.append_assoc] using hturn

namespace Settings

/-- Wherever the history is and whatever it holds, a session ends well and
prints the one transcript of its lines. What it prints for a text that ends its
last line stays, but for the last prompt, in front of what it prints for any
text that follows. -/
theorem session_transcript (settings : Settings) :
    (∀ place archive, ∀ text : String,
      let outcome := (settings.session place archive (Text.encoded text.toList)).1
      outcome.status = 0 ∧ outcome.stderr = "" ∧
        ∀ shown, outcome.stdout = shown ↔
          ∃ lines, Text.Splits text.toList lines ∧ Transcript settings lines shown) ∧
    ∀ first : String, Text.Terminated '\n' first.toList →
      ∃ shown, ∀ place archive,
        (settings.session place archive (Text.encoded first.toList)).1.stdout =
          shown ++ settings.prompt ∧
        ∀ second : String, ∀ place' archive',
          (settings.session place archive (Text.encoded (first ++ second).toList)).1.stdout =
            shown ++ (settings.session place' archive' (Text.encoded second.toList)).1.stdout := by
  constructor
  · intro place archive text
    simp only [session_encoded, Text.splits_iff, exists_eq_left, transcript_iff, implies_true,
      and_self]
  · intro first hfirst
    refine ⟨String.join (settings.turns (Text.lines first)), fun place archive => ?_⟩
    constructor
    · rw [session_encoded]
    · intro second place' archive'
      simp only [session_encoded, Text.lines_append hfirst, turns, List.flatMap_append,
        String.join_append, String.append_assoc]

theorem session_transcript_after_failure :
    Text.Terminated '\n' "(1+\n".toList ∧
      (session ⟨"> ", true⟩ .home (.file none)
          (Text.encoded ("(1+\n" ++ "1+1\r\n4").toList)).1.stdout =
        "> Expected expression after \"+\"\n" ++
          (session ⟨"> ", true⟩ .off .off (Text.encoded "1+1\r\n4".toList)).1.stdout := by
  have hfirst : Text.Terminated '\n' "(1+\n".toList := .inr ⟨"(1+".toList, by decide +kernel⟩
  obtain ⟨shown, hshown⟩ := (session_transcript ⟨"> ", true⟩).2 "(1+\n" hfirst
  obtain ⟨halone, hmore⟩ := hshown .home (.file none)
  have hprinted :
      (session ⟨"> ", true⟩ .home (.file none) (Text.encoded "(1+\n".toList)).1.stdout =
        "> Expected expression after \"+\"\n" ++ "> " := by decide +kernel
  rw [halone, String.append_left_inj] at hprinted
  exact ⟨hfirst, hprinted ▸ hmore "1+1\r\n4" .off .off⟩

end Settings

end Abacus
