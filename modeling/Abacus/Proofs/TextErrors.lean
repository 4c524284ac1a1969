import Abacus.Proofs.CalculationLaws
import Abacus.Proofs.Expr.Numbers
import Abacus.Proofs.Grammar.TokenErrors
import Abacus.Proofs.Token.StreamLaws

/-!
# What reading a text can end in

Tokens can have any lexeme, but those of a text look as their kinds do. So all its
operators can be named, and only their size can put its numbers out of range.
-/

namespace Abacus

namespace Token

def isTooLarge (t : Token) : Bool :=
  t.kind = .number ∧ 2 ^ 63 ≤ Nat.ofDigitChars 10 t.lexeme.toList 0

variable {t : Token}

theorem isDigits_of_lexeme (hl : t.kind.Lexeme t.lexeme.toList) (ht : t.kind = .number) :
    Numeral.IsDigits t.lexeme.toList := by
  rwa [ht] at hl

theorem isUnreadable_eq_isTooLarge (hl : t.kind.Lexeme t.lexeme.toList) :
    t.isUnreadable = t.isTooLarge := by
  by_cases ht : t.kind = .number
  · simp [isUnreadable, isTooLarge, ht, Numeral.read?_eq_none_iff (isDigits_of_lexeme hl ht)]
  · simp [isUnreadable, isTooLarge, ht]

theorem find?_isUnreadable {tokens : List Token}
    (hl : ∀ t ∈ tokens, t.kind.Lexeme t.lexeme.toList) :
    tokens.find? isUnreadable = tokens.find? isTooLarge := by
  rw [← List.head?_filter, ← List.head?_filter,
    List.filter_congr fun t ht => isUnreadable_eq_isTooLarge (hl t ht)]

theorem ofSymbol?_ne_none_of_lexeme (hl : t.kind.Lexeme t.lexeme.toList)
    (hk : t.kind.isOperator = true) : Operator.ofSymbol? t.lexeme ≠ none := by
  have hsymbol : ['+', '-', '*', '/', '%', '^'].all
      (fun c => (Operator.ofSymbol? (String.ofList [c])).isSome) = true := by decide
  obtain ⟨c, hc, hlexeme⟩ : ∃ c ∈ ['+', '-', '*', '/', '%', '^'], t.lexeme.toList = [c] := by
    obtain ⟨kind, lexeme⟩ := t
    cases kind with
    | sumOp | termOp =>
      obtain ⟨c, hc, hlexeme⟩ := hl
      exact ⟨c, by grind, hlexeme⟩
    | powerOp => exact ⟨'^', by simp, hl⟩
    | _ => cases hk
  rw [← String.ofList_toList (s := t.lexeme), hlexeme]
  exact Option.isSome_iff_ne_none.mp (List.all_eq_true.mp hsymbol c hc)

theorem stops_begins_iff : Stops Grammar.begins tokens ↔
    ∀ t, tokens.head? = some t → t.kind ∈ [.sumOp, .termOp, .powerOp, .closeParen] := by
  refine forall₂_congr fun t ht => ?_
  cases hk : t.kind <;> simp [Grammar.begins, hk]

end Token

namespace Expr

theorem ofText_ne_unknownOperator (text op : String) :
    ofText text ≠ .error (.syntactic (.unknownOperator op)) := by
  intro h
  obtain ⟨tokens, htokens, e, he, htyped⟩ := ofText_eq_syntactic_iff.mp h
  cases e <;> cases htyped
  obtain ⟨rest, trace, hr⟩ := Grammar.exists_reads_of_error he rfl
  obtain ⟨t, hmem, hk, ho⟩ := hr.unknownOperator_mem
  exact Token.ofSymbol?_ne_none_of_lexeme (Token.lexeme_of_ofText htokens t hmem) hk ho

theorem ofText_outOfRange (h : ofText text = .error (.syntactic (.numberOutOfRange n))) :
    Numeral.IsDigits n.toList ∧ ∃ tokens, Token.ofText text = .ok tokens ∧
      tokens.find? Token.isTooLarge = some ⟨.number, n⟩ := by
  obtain ⟨tokens, htokens, e, he, htyped⟩ := ofText_eq_syntactic_iff.mp h
  cases e <;> cases htyped
  obtain ⟨rest, trace, hr⟩ := Grammar.exists_reads_of_error he rfl
  obtain ⟨t, hfind, rfl⟩ := hr.find?_unreadable
  have hlexeme := Token.lexeme_of_ofText htokens
  rw [Token.find?_isUnreadable hlexeme] at hfind
  have hkind : t.kind = .number := by
    have := List.find?_some hfind
    simp only [Token.isTooLarge, decide_eq_true_eq] at this
    exact this.1
  obtain ⟨_, _⟩ := t
  obtain rfl := hkind
  exact ⟨hlexeme _ (List.mem_of_find?_eq_some hfind), tokens, htokens, hfind⟩

theorem ofText_noExpression_iff : ofText text = .error (.syntactic (.noExpression shown)) ↔
    shown = text ∧ ∃ tokens, Token.ofText text = .ok tokens ∧ Stops Grammar.begins tokens := by
  rw [ofText_eq_syntactic_iff]
  constructor
  · rintro ⟨tokens, htokens, e, he, htyped⟩
    cases e <;> cases htyped
    exact ⟨rfl, tokens, htokens, (Grammar.ofTokens_eq_noExpression_iff.mp he).1⟩
  · rintro ⟨rfl, tokens, htokens, hs⟩
    exact ⟨tokens, htokens, _, Grammar.ofTokens_eq_noExpression_iff.mpr ⟨hs, rfl⟩, rfl⟩

theorem nonneg_of_ofText (h : ofText text = .ok e) : ∀ v ∈ e.numbers, 0 ≤ v.toInt := by
  intro v hv
  obtain ⟨tokens, htokens, he⟩ := ofText_eq_ok_iff.mp h
  obtain ⟨d, rfl, -, hm⟩ := Grammar.ofTokens_eq_ok_iff_means.mp he
  have hread : some v ∈ e.numbers.map some := List.mem_map_of_mem hv
  rw [hm.numbers, List.mem_map] at hread
  obtain ⟨t, ht, hread⟩ := hread
  obtain ⟨hmem, hkind⟩ := List.mem_filter.mp ht
  have hlexeme := Token.lexeme_of_ofText htokens t hmem
  exact Numeral.nonneg_of_read?
    (Token.isDigits_of_lexeme hlexeme (Grammar.isKind_eq_true_iff.mp hkind)) hread

/-- An operator is never unknown. A number is reported out of range if it is
the first of the text with too large a value, which zeros in front have no part
in. There is no expression, and the text is shown as it was typed, exactly if
no token begins one. The numbers of a tree are not negative. -/
theorem ofText_outcomes (text : String) :
    (∀ op, ofText text ≠ .error (.syntactic (.unknownOperator op))) ∧
    (∀ n, ofText text = .error (.syntactic (.numberOutOfRange n)) →
      Numeral.IsDigits n.toList ∧
      (∃ tokens, Token.ofText text = .ok tokens ∧
        tokens.find? Token.isTooLarge = some ⟨.number, n⟩) ∧
      ∀ zeros digits, n.toList = List.replicate zeros '0' ++ digits →
        2 ^ 63 ≤ Nat.ofDigitChars 10 digits 0) ∧
    (∀ shown, ofText text = .error (.syntactic (.noExpression shown)) ↔
      shown = text ∧ ∃ tokens, Token.ofText text = .ok tokens ∧
        ∀ t, tokens.head? = some t → t.kind ∈ [.sumOp, .termOp, .powerOp, .closeParen]) ∧
    ∀ e, ofText text = .ok e → ∀ v ∈ e.numbers, 0 ≤ v.toInt ∧ v.toInt ≤ 2 ^ 63 - 1 := by
  refine ⟨ofText_ne_unknownOperator text, fun n h => ?_, fun shown => ?_, fun e h v hv => ?_⟩
  · obtain ⟨hdigits, tokens, htokens, hfind⟩ := ofText_outOfRange h
    refine ⟨hdigits, ⟨tokens, htokens, hfind⟩, fun zeros digits hn => ?_⟩
    have hlarge := List.find?_some hfind
    simp only [Token.isTooLarge, decide_eq_true_eq, hn, Numeral.ofDigitChars_zeros] at hlarge
    exact hlarge.2
  · simp only [ofText_noExpression_iff, Token.stops_begins_iff]
  · exact ⟨nonneg_of_ofText h v hv, Int.le_sub_one_of_lt v.toInt_lt⟩

theorem ofText_outcomes_of_each_kind :
    let large := "0099999999999999999999"
    let text := "007+sqrt(" ++ large ++ ")-99999999999999999998"
    let tree := binary .sub (num 2) (num 3)
    ofText text = .error (.syntactic (.numberOutOfRange large)) ∧
      Numeral.IsDigits large.toList ∧
      (∃ tokens, Token.ofText text = .ok tokens ∧
        tokens.find? Token.isTooLarge = some ⟨.number, large⟩) ∧
      2 ^ 63 ≤ Nat.ofDigitChars 10 (List.replicate 20 '9') 0 ∧
      ofText " )1" = .error (.syntactic (.noExpression " )1")) ∧
      ofText "(02-3)" = .ok tree ∧ ∀ v ∈ tree.numbers, 0 ≤ v.toInt ∧ v.toInt ≤ 2 ^ 63 - 1 := by
  intro large text tree
  have hlarge : ofText text = .error (.syntactic (.numberOutOfRange large)) := by decide +kernel
  have htree : ofText "(02-3)" = .ok tree := by decide +kernel
  have htokens : Token.ofText " )1" = .ok [⟨.closeParen, ")"⟩, ⟨.number, "1"⟩] := by
    decide +kernel
  obtain ⟨hdigits, hfirst, hzeros⟩ := (ofText_outcomes text).2.1 large hlarge
  exact ⟨hlarge, hdigits, hfirst, hzeros 2 (List.replicate 20 '9') (by decide +kernel),
    ((ofText_outcomes " )1").2.2.1 " )1").mpr ⟨rfl, _, htokens, by simp⟩, htree,
    (ofText_outcomes "(02-3)").2.2.2 tree htree⟩

end Expr

end Abacus
