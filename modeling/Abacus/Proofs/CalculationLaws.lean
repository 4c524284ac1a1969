import Abacus.Calculation

/-! A calculation goes as far as its first error, and what it logged up to there
stays. -/

namespace Abacus

@[simp] theorem mapError_ok (a : α) (f : ε → ε') :
    (Except.ok a : Except ε α).mapError f = .ok a := rfl

@[simp] theorem mapError_error (e : ε) (f : ε → ε') :
    (Except.error e : Except ε α).mapError f = .error (f e) := rfl

namespace Calculation

theorem run_bind (m : Logged α) (f : α → Logged β) (records : Array Record) :
    (m >>= f).run records =
      match m.run records with
      | (.ok a, records) => (f a).run records
      | (.error e, records) => (.error e, records) := by
  rw [ExceptT.run_bind]
  change StateT.bind m.run _ records = _
  unfold StateT.bind
  obtain ⟨outcome, final⟩ := m.run records
  cases outcome <;> rfl

theorem tree_run (text : String) (records : Array Record) :
    (tree text).run records =
      match Token.ofText text with
      | .error e => (.error (.lexical e), records)
      | .ok tokens =>
        let (outcome, final) := Grammar.run (some Grammar.maxDepth) tokens
        let records := records.push (.tokenized text tokens.length) ++
          final.fallbacks.map Record.fellBack
        match outcome with
        | .error e => (.error (.syntactic (asTyped text e)), records)
        | .ok e => (.ok e, records.push (.parsed text e)) := by
  unfold tree
  cases Token.ofText text with
  | error e => rfl
  | ok tokens =>
    simp only [orFail, pure_bind]
    obtain ⟨outcome, final⟩ := Grammar.run (some Grammar.maxDepth) tokens
    cases outcome <;> rfl

theorem value_run (text : String) (records : Array Record) :
    (value text).run records =
      match (tree text).run records with
      | (.error e, records) => (.error e, records)
      | (.ok e, records) =>
        match e.value with
        | .error f => (.error (.fault f), records)
        | .ok v => (.ok v, records.push (.valued e v)) := by
  rw [value, run_bind]
  obtain ⟨outcome, final⟩ := (tree text).run records
  cases outcome with
  | error e => rfl
  | ok e =>
    simp only
    cases e.value <;> rfl

end Calculation

theorem Expr.ofText_eq (h : Token.ofText text = .ok tokens) :
    ofText text = (ofTokens tokens).mapError fun e => .syntactic (Calculation.asTyped text e) := by
  simp only [ofText, Calculation.tree_run, h, ofTokens]
  obtain ⟨outcome, final⟩ := Grammar.run (some Grammar.maxDepth) tokens
  cases outcome <;> rfl

theorem Expr.ofText_eq_lexical (h : Token.ofText text = .error e) :
    ofText text = .error (.lexical e) := by
  simp only [ofText, Calculation.tree_run, h]

theorem Expr.ofText_eq_ok_iff :
    ofText text = .ok e ↔ ∃ tokens, Token.ofText text = .ok tokens ∧ ofTokens tokens = .ok e := by
  cases h : Token.ofText text with
  | error failure => simp [ofText_eq_lexical h]
  | ok tokens =>
    rw [ofText_eq h]
    cases hread : ofTokens tokens <;> simp [hread]

theorem Expr.ofText_eq_syntactic_iff :
    ofText text = .error (.syntactic e) ↔
      ∃ tokens, Token.ofText text = .ok tokens ∧
        ∃ e', ofTokens tokens = .error e' ∧ Calculation.asTyped text e' = e := by
  cases h : Token.ofText text with
  | error failure => simp [ofText_eq_lexical h]
  | ok tokens =>
    rw [ofText_eq h]
    cases hread : ofTokens tokens <;> simp [hread]

theorem evaluate_eq (text : String) :
    evaluate text = (Expr.ofText text).bind fun e => e.value.mapError .fault := by
  unfold evaluate Expr.ofText
  rw [Calculation.value_run]
  obtain ⟨outcome, final⟩ := (Calculation.tree text).run #[]
  cases outcome with
  | error e => rfl
  | ok e =>
    simp only [Except.bind]
    cases e.value <;> rfl

theorem exists_ofText_of_evaluate (h : evaluate text = .ok v) : ∃ e, Expr.ofText text = .ok e := by
  rw [evaluate_eq] at h
  cases htree : Expr.ofText text with
  | error f => rw [htree] at h; cases h
  | ok e => exact ⟨e, rfl⟩

end Abacus
