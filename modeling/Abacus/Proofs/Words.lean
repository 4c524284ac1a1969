import Abacus.Proofs.Conversation.RunLaws
import Abacus.Proofs.Token.Concatenation

/-! The words of an expression are joined by spaces and worked out as one text. Each
has the tokens it has alone, and the first that cannot be read ends the run. -/

namespace Abacus

theorem Outcome.once_of_lexical (settings : Settings) (h : Token.ofText text = .error e) :
    once settings text = ⟨1, "", e.message ++ "\n"⟩ := by
  have hfail : evaluate text = .error (.lexical e) := by
    rw [evaluate_eq, Expr.ofText_eq_lexical h]
    rfl
  rw [once, solve_eq_error_iff.mpr hfail]
  rfl

/-- Texts with blanks between them are cut into tokens each on its own, and the
first that cannot be read decides the error. The words on a command line are
such texts, with a space between them. -/
theorem ofText_separated :
    (∀ first gap second : String, gap ≠ "" → Text.IsBlank gap.toList →
      Token.ofText (first ++ gap ++ second) = do
        let tokens ← Token.ofText first
        let more ← Token.ofText second
        return tokens ++ more) ∧
    ∀ invocation : Invocation, invocation.words ≠ [] →
      let text := " ".intercalate invocation.words
      invocation.once? = some (.once invocation.settings text) ∧
      Token.ofText text = (invocation.words.mapM Token.ofText).map List.flatten ∧
      ∀ front word back e, invocation.words = front ++ word :: back →
        (∀ other ∈ front, ∃ tokens, Token.ofText other = .ok tokens) →
        Token.ofText word = .error e →
        Token.ofText text = .error e ∧
          invocation.once? = some ⟨1, "", e.message ++ "\n"⟩ := by
  refine ⟨fun first gap second hne hg => Token.ofText_append_gap hg hne first second, ?_⟩
  intro invocation hwords text
  have honce : invocation.once? = some (.once invocation.settings text) := by
    unfold Invocation.once?
    split
    · next h => exact absurd h hwords
    · rfl
  refine ⟨honce, Token.ofText_words _, fun front word back e hparts hfront hword => ?_⟩
  have htext : Token.ofText text = .error e := by
    simpa only [text, hparts] using Token.ofText_words_error hfront hword
  exact ⟨htext, by rw [honce, Outcome.once_of_lexical _ htext]⟩

theorem ofText_separated_at_seams :
    let invocation : Invocation := ⟨["sqrt4", "1sq", "rt", "#"], "", .off, false⟩
    Token.ofText ("12" ++ "\t\x0b" ++ "3") = .ok [⟨.number, "12"⟩, ⟨.number, "3"⟩] ∧
      Token.ofText "1sq" = .error (.unrecognized "sq") ∧
      Token.ofText (" ".intercalate invocation.words) = .error (.unrecognized "sq") ∧
      invocation.once? = some ⟨1, "", "Undefined token found <sq>\n"⟩ := by
  intro invocation
  have hfirst : Token.ofText "12" = .ok [⟨.number, "12"⟩] := by decide +kernel
  have hsecond : Token.ofText "3" = .ok [⟨.number, "3"⟩] := by decide +kernel
  have hroot : Token.ofText "sqrt4" = .ok [⟨.sqrt, "sqrt"⟩, ⟨.number, "4"⟩] := by decide +kernel
  have hword : Token.ofText "1sq" = .error (.unrecognized "sq") := by decide +kernel
  have hgap : Text.IsBlank "\t\x0b".toList := by simp [Text.IsBlank, Text.blanks]
  obtain ⟨hpair, hwords⟩ := ofText_separated
  obtain ⟨-, -, hfail⟩ := hwords invocation (by simp [invocation])
  obtain ⟨htext, honce⟩ := hfail ["sqrt4"] "1sq" ["rt", "#"] _ rfl (by simp [hroot]) hword
  refine ⟨?_, hword, htext, honce⟩
  rw [hpair "12" "\t\x0b" "3" (by decide) hgap, hfirst, hsecond]
  rfl

end Abacus
