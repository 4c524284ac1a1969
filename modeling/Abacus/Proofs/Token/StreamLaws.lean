import Abacus.Proofs.Token.Lexemes

/-!
# Token stream laws

`Tokenizes` says what a text is cut into without a cursor. Every text has exactly
one answer, and the stream gives it (`Token.ofText_eq_iff`).
-/

namespace Abacus

def Text.IsBlank (gap : List Char) : Prop := ∀ c ∈ gap, c ∈ Text.blanks

theorem Text.isBlank_nil : IsBlank [] := by simp [IsBlank]

theorem Text.isBlank_space : IsBlank [' '] := by simp [IsBlank, blanks]

namespace Token

/-- Characters that are no blanks and that no lexeme starts, at least one. -/
structure Unrecognizable (run : List Char) : Prop where
  ne_nil : run ≠ []
  solid : ∀ c ∈ run, c ∉ Text.blanks
  no_lexeme : ∀ (kind : Kind) (lexeme : List Char), kind.Lexeme lexeme → ¬ lexeme <+: run

inductive Tokenizes : List Char → Except LexicalError (List Token) → Prop
  | done (hg : Text.IsBlank gap) : Tokenizes gap (.ok [])
  | token {t : Token} (hg : Text.IsBlank gap) (hl : t.kind.Lexeme t.lexeme.toList)
      (hr : t.kind.Ends rest) (h : Tokenizes rest answer) :
      Tokenizes (gap ++ (t.lexeme.toList ++ rest)) (answer.map (t :: ·))
  | unrecognized (hg : Text.IsBlank gap) (hu : Unrecognizable run)
      (hr : Stops (· ∉ Text.blanks) rest) :
      Tokenizes (gap ++ (run ++ rest)) (.error (.unrecognized (String.ofList run)))

variable {gap rest text before run : List Char} {c : Cursor Char} {t : Token}

theorem stops_blanks (hne : run ≠ []) (hs : ∀ c ∈ run, c ∉ Text.blanks) :
    Stops (· ∈ Text.blanks) (run ++ rest) := by
  obtain ⟨c, run, rfl⟩ := List.exists_cons_of_ne_nil hne
  exact stops_cons (by simpa using hs c (by simp))

theorem eq_nil_of_stops (h : Stops (· ∈ Text.blanks) rest) (h' : Stops (· ∉ Text.blanks) rest) :
    rest = [] := by
  cases rest with
  | nil => rfl
  | cons c rest => exact absurd (by simpa using h' c rfl) (by simpa using h c rfl)

theorem skipBlanks_gap (h : c.At before [] (gap ++ rest)) (hg : Text.IsBlank gap)
    (hr : Stops (· ∈ Text.blanks) rest) : c.skipBlanks.2.At (before ++ gap) [] rest := by
  have hat := h.skipBlanks
  obtain ⟨ht, hd⟩ := takeWhile_append (p := (· ∈ Text.blanks)) (by simpa [Text.IsBlank] using hg) hr
  rwa [ht, hd] at hat

theorem Unrecognizable.no_lexeme_append (hu : Unrecognizable run)
    (hr : Stops (· ∉ Text.blanks) rest) (kind : Kind) (lexeme : List Char)
    (hl : kind.Lexeme lexeme) : ¬ lexeme <+: run ++ rest := by
  intro hp
  rcases List.prefix_or_prefix_of_prefix hp (List.prefix_append run rest) with h | ⟨more, rfl⟩
  · exact hu.no_lexeme kind lexeme hl h
  · cases more with
    | nil => exact hu.no_lexeme kind _ hl (by simp)
    | cons c more =>
      obtain ⟨tail, rfl⟩ := (List.prefix_append_right_inj run).mp hp
      exact hl.no_blank c (by simp) (by simpa using hr c rfl)

theorem Unrecognizable.stops (hu : Unrecognizable run) :
    Stops (· ∈ Text.digits) (run ++ rest) := by
  obtain ⟨c, run, rfl⟩ := List.exists_cons_of_ne_nil hu.ne_nil
  have hc : c ∉ Text.digits := fun hc =>
    hu.no_lexeme .number [c] ⟨by simp, by simpa using hc⟩ ⟨run, rfl⟩
  exact stops_cons (by simpa using hc)

theorem stream_done (h : c.At before [] gap) (hg : Text.IsBlank gap) :
    ∃ d, TokenStream.scan c = (none, d) ∧ d.At (before ++ gap) [] [] := by
  rw [← List.append_nil gap] at h
  have hat := skipBlanks_gap h hg (by simp [Stops])
  have hf : front? rules [] = none := rfl
  have hs : Pattern.solid.split? [] = none := rfl
  obtain ⟨d, hd, hat⟩ := scan_miss hat hf
  obtain ⟨e, he, hat⟩ := hat.scan_miss hs
  exact ⟨e, by simp [TokenStream.scan, hd, he], hat⟩

theorem stream_token (h : c.At before [] (gap ++ (t.lexeme.toList ++ rest)))
    (hg : Text.IsBlank gap) (hl : t.kind.Lexeme t.lexeme.toList) (hr : t.kind.Ends rest) :
    ∃ d, TokenStream.scan c = (some (.ok t), d) ∧
      d.At (before ++ gap ++ t.lexeme.toList) [] rest := by
  have hat := skipBlanks_gap h hg (stops_blanks hl.ne_nil hl.no_blank)
  obtain ⟨d, hd, hat⟩ := scan_hit hat (front?_eq_some_iff.mpr ⟨hl, rfl, hr⟩)
  exact ⟨d, by simp [TokenStream.scan, hd], hat⟩

theorem stream_unrecognized (h : c.At before [] (gap ++ (run ++ rest))) (hg : Text.IsBlank gap)
    (hu : Unrecognizable run) (hr : Stops (· ∉ Text.blanks) rest) :
    ∃ d, TokenStream.scan c = (some (.error (.unrecognized (String.ofList run))), d) ∧
      d.At (before ++ gap ++ run) [] rest := by
  have hat := skipBlanks_gap h hg (stops_blanks hu.ne_nil hu.solid)
  obtain ⟨d, hd, hat⟩ := scan_miss hat (front?_eq_none_iff.mpr (hu.no_lexeme_append hr))
  have hrun : Pattern.solid.split? (run ++ rest) = some (run, rest) :=
    run?_eq_some_iff.mpr ⟨rfl, hu.ne_nil, by simpa using hu.solid, hr⟩
  obtain ⟨e, he, hat⟩ := hat.scan_hit hrun
  exact ⟨e, by simp [TokenStream.scan, hd, he], by simpa using hat⟩

theorem Tokenizes.collect_eq (h : Tokenizes text answer) (hat : c.At before [] text)
    (hb : text.length ≤ bound) : TokenStream.collect (bound + 1) ⟨c, false⟩ = answer := by
  induction h generalizing bound c before with
  | done hg =>
    obtain ⟨d, hd, -⟩ := stream_done hat hg
    simp [TokenStream.collect, TokenStream.next, hd]
  | @token gap left _ t hg hl hr _ ih =>
    have hpos := List.length_pos_iff.mpr hl.ne_nil
    simp only [List.length_append] at hb
    obtain ⟨bound, rfl⟩ : ∃ n, bound = n + 1 := Nat.exists_eq_add_one.mpr (by omega)
    have hle : left.length ≤ bound := by omega
    obtain ⟨d, hd, hat⟩ := stream_token hat hg hl hr
    rw [TokenStream.collect]
    simp [TokenStream.next, hd, ih hat hle]
  | unrecognized hg hu hr =>
    obtain ⟨d, hd, -⟩ := stream_unrecognized hat hg hu hr
    simp [TokenStream.collect, TokenStream.next, hd]

theorem tokenizes (text : List Char) : ∃ answer, Tokenizes text answer := by
  induction hn : text.length using Nat.strongRecOn generalizing text with
  | ind n ih =>
    obtain ⟨gap, body, rfl, hg, hstop⟩ := exists_run (· ∈ Text.blanks) text
    have hblank : Text.IsBlank gap := by simpa [Text.IsBlank] using hg
    cases hf : front? rules body with
    | some found =>
      obtain ⟨t, rest⟩ := found
      obtain ⟨hl, rfl, hr⟩ := front?_eq_some_iff.mp hf
      have hpos := List.length_pos_iff.mpr hl.ne_nil
      simp only [List.length_append] at hn
      obtain ⟨answer, h⟩ := ih rest.length (by omega) rest rfl
      exact ⟨_, .token hblank hl hr h⟩
    | none =>
      obtain ⟨run, rest, rfl, hs, hr⟩ := exists_run (· ∉ Text.blanks) body
      have hlexeme := front?_eq_none_iff.mp hf
      cases run with
      | nil =>
        obtain rfl := eq_nil_of_stops hstop hr
        exact ⟨_, by simpa using Tokenizes.done hblank⟩
      | cons c run =>
        refine ⟨_, .unrecognized hblank ⟨by simp, by simpa using hs, ?_⟩ hr⟩
        exact fun kind lexeme hl hp => hlexeme kind lexeme hl (hp.trans (List.prefix_append _ _))

theorem ofText_eq_iff {text : String} : ofText text = answer ↔ Tokenizes text.toList answer := by
  have hread : ∀ {answer}, Tokenizes text.toList answer → ofText text = answer := fun h =>
    h.collect_eq (Cursor.at_ofList _) (Nat.le_of_eq String.length_toList)
  constructor
  · rintro rfl
    obtain ⟨answer, h⟩ := tokenizes text.toList
    rwa [hread h]
  · exact hread

theorem Tokenizes.lexemes (h : Tokenizes text (.ok tokens)) :
    ∀ t ∈ tokens, t.kind.Lexeme t.lexeme.toList := by
  generalize ha : (.ok tokens : Except LexicalError (List Token)) = answer at h
  induction h generalizing tokens with
  | done => cases ha; exact nofun
  | @token _ _ read _ _ hl _ _ ih =>
    cases read with
    | error e => cases ha
    | ok read =>
      cases ha
      exact List.forall_mem_cons.mpr ⟨hl, ih rfl⟩
  | unrecognized => cases ha

theorem Tokenizes.ascii (h : Tokenizes text (.ok tokens)) : ∀ c ∈ text, c.toNat < 0x80 := by
  have hblank : ∀ c ∈ Text.blanks, c.toNat < 0x80 := by simp [Text.blanks]
  generalize ha : (.ok tokens : Except LexicalError (List Token)) = answer at h
  induction h generalizing tokens with
  | done hg => exact fun c hc => hblank c (hg c hc)
  | @token _ _ read _ hg hl _ _ ih =>
    cases read with
    | error e => cases ha
    | ok read =>
      intro c hc
      simp only [List.mem_append] at hc
      obtain hc | hc | hc := hc
      · exact hblank c (hg c hc)
      · exact hl.ascii c hc
      · exact ih rfl c hc
  | unrecognized => cases ha

theorem lexeme_of_ofText {text : String} (h : ofText text = .ok tokens) :
    ∀ t ∈ tokens, t.kind.Lexeme t.lexeme.toList :=
  (ofText_eq_iff.mp h).lexemes

theorem Tokenizes.after_gap (hg : Text.IsBlank gap) (h : Tokenizes text answer) :
    Tokenizes (gap ++ text) answer := by
  have hboth : ∀ {more}, Text.IsBlank more → Text.IsBlank (gap ++ more) := fun hm c hc =>
    (List.mem_append.mp hc).elim (hg c) (hm c)
  cases h with
  | done hm => exact .done (hboth hm)
  | token hm hl hr h =>
    rw [← List.append_assoc]
    exact .token (hboth hm) hl hr h
  | unrecognized hm hu hr =>
    rw [← List.append_assoc]
    exact .unrecognized (hboth hm) hu hr

theorem Tokenizes.lexeme (h : Tokenizes rest (.ok tokens)) (hl : t.kind.Lexeme t.lexeme.toList)
    (hr : t.kind.Ends rest) : Tokenizes (t.lexeme.toList ++ rest) (.ok (t :: tokens)) :=
  .token Text.isBlank_nil hl hr h

/-- The second text must not go on with the digits of a number that ends the first. -/
theorem Tokenizes.append (h : Tokenizes text (.ok tokens)) (h' : Tokenizes rest answer)
    (hr : Stops (· ∈ Text.digits) rest) : Tokenizes (text ++ rest) (answer.map (tokens ++ ·)) := by
  generalize ha : (.ok tokens : Except LexicalError (List Token)) = first at h
  induction h generalizing tokens with
  | done hg =>
    cases ha
    have hid : answer.map ([] ++ ·) = answer := by cases answer <;> rfl
    rw [hid]
    exact h'.after_gap hg
  | @token gap left read t hg hl ht _ ih =>
    cases read with
    | error e => cases ha
    | ok read =>
      cases ha
      have hmap : answer.map (t :: read ++ ·) = (answer.map (read ++ ·)).map (t :: ·) := by
        cases answer <;> rfl
      rw [hmap, List.append_assoc, List.append_assoc]
      exact .token hg hl (fun hk => (ht hk).append hr) (ih rfl)
  | unrecognized => cases ha

end Token

end Abacus
