import Abacus.Proofs.Token.StreamLaws

/-! A blank ends whatever stands before it: a number, a lexeme not complete and the
run of an error. So texts with blanks between them are cut into tokens each on its own
(`ofText_append_gap`). -/

namespace Abacus

variable {gap rest text : List Char}

theorem Text.not_mem_digits_of_blank (hc : c ∈ blanks) : c ∉ digits := by
  have hd : ∀ c ∈ blanks, c ∉ digits := by simp [blanks, digits]
  exact hd c hc

theorem Text.IsBlank.head (hg : IsBlank gap) (hne : gap ≠ []) :
    ∃ c ∈ blanks, ∃ more, gap = c :: more := by
  obtain ⟨c, more, rfl⟩ := List.exists_cons_of_ne_nil hne
  exact ⟨c, hg c (by simp), more, rfl⟩

theorem Text.IsBlank.stops_digits (hg : IsBlank gap) (hne : gap ≠ []) :
    Stops (· ∈ digits) (gap ++ rest) := by
  obtain ⟨c, hc, more, rfl⟩ := hg.head hne
  exact stops_cons (by simpa using not_mem_digits_of_blank hc)

theorem Text.IsBlank.stops_solid (hg : IsBlank gap) (hne : gap ≠ []) :
    Stops (· ∉ blanks) (gap ++ rest) := by
  obtain ⟨c, hc, more, rfl⟩ := hg.head hne
  exact stops_cons (by simpa using hc)

namespace Token

theorem Tokenizes.append_error (h : Tokenizes text (.error e))
    (hr : ∀ c, rest.head? = some c → c ∈ Text.blanks) : Tokenizes (text ++ rest) (.error e) := by
  have hdigits : Stops (· ∈ Text.digits) rest := fun c hc => by
    simpa using Text.not_mem_digits_of_blank (hr c hc)
  have hsolid : Stops (· ∉ Text.blanks) rest := fun c hc => by simpa using hr c hc
  generalize ha : (.error e : Except LexicalError (List Token)) = answer at h
  induction h with
  | done => cases ha
  | @token gap left read t hg hl ht _ ih =>
    cases read with
    | ok read => cases ha
    | error e' =>
      cases ha
      rw [List.append_assoc, List.append_assoc]
      exact .token hg hl (fun hk => (ht hk).append hdigits) (ih rfl)
  | unrecognized hg hu hs =>
    cases ha
    rw [List.append_assoc, List.append_assoc]
    exact .unrecognized hg hu (hs.append hsolid)

theorem ofText_append_gap {gap : String} (hg : Text.IsBlank gap.toList) (hne : gap ≠ "")
    (first second : String) :
    ofText (first ++ gap ++ second) = do
      let tokens ← ofText first
      let more ← ofText second
      return tokens ++ more := by
  have hgap : gap.toList ≠ [] := by simpa using hne
  rw [ofText_eq_iff, String.toList_append, String.toList_append, List.append_assoc]
  cases h : ofText first with
  | error e =>
    refine (ofText_eq_iff.mp h).append_error fun c hc => ?_
    simpa using hg.stops_solid hgap c hc
  | ok tokens =>
    have hread : Tokenizes second.toList (ofText second) := ofText_eq_iff.mp rfl
    have hsecond := hread.after_gap hg
    have hboth := (ofText_eq_iff.mp h).append hsecond (hg.stops_digits hgap)
    cases hmore : ofText second <;> rw [hmore] at hboth <;> exact hboth

theorem ofText_words (words : List String) :
    ofText (" ".intercalate words) = (words.mapM ofText).map List.flatten := by
  have hspace : Text.IsBlank " ".toList := Text.isBlank_space
  induction words with
  | nil => exact ofText_eq_iff.mpr (.done Text.isBlank_nil)
  | cons word words ih =>
    rw [List.mapM_cons]
    by_cases hw : words = []
    · subst hw
      rw [String.intercalate_singleton]
      cases ofText word with
      | error e => rfl
      | ok tokens => exact congrArg Except.ok List.flatten_singleton.symm
    · rw [String.intercalate_cons_of_ne_nil hw, ofText_append_gap hspace (by decide), ih]
      cases ofText word <;> cases words.mapM ofText <;> rfl

theorem ofText_words_error {word : String}
    (hfront : ∀ other ∈ front, ∃ tokens, ofText other = .ok tokens) (h : ofText word = .error e) :
    ofText (" ".intercalate (front ++ word :: back)) = .error e := by
  have hread : (front ++ word :: back).mapM ofText = .error e := by
    induction front with
    | nil =>
      rw [List.nil_append, List.mapM_cons, h]
      rfl
    | cons other front ih =>
      obtain ⟨⟨tokens, hother⟩, hfront⟩ := List.forall_mem_cons.mp hfront
      rw [List.cons_append, List.mapM_cons, hother, ih hfront]
      rfl
  rw [ofText_words, hread]
  rfl

theorem ofText_lexeme {t : Token} (hl : t.kind.Lexeme t.lexeme.toList) :
    ofText t.lexeme = .ok [t] := by
  have h := Tokenizes.lexeme (.done Text.isBlank_nil) hl fun _ => by simp [Stops]
  rw [List.append_nil] at h
  exact ofText_eq_iff.mpr h

theorem ofText_lexemes {tokens : List Token} (hl : ∀ t ∈ tokens, t.kind.Lexeme t.lexeme.toList) :
    ofText (" ".intercalate (tokens.map Token.lexeme)) = .ok tokens := by
  have hread : (tokens.map Token.lexeme).mapM ofText = .ok (tokens.map ([·])) := by
    induction tokens with
    | nil => rfl
    | cons t tokens ih =>
      obtain ⟨ht, hts⟩ := List.forall_mem_cons.mp hl
      rw [List.map_cons, List.mapM_cons, ofText_lexeme ht, ih hts]
      rfl
  rw [ofText_words, hread]
  exact congrArg Except.ok (by rw [← List.flatMap_def, List.flatMap_singleton'])

end Token

end Abacus
