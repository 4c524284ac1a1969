import Abacus.Proofs.Grammar.ErrorLocation
import Abacus.Proofs.Grammar.Substitution

/-! A number out of range is the first there is, as no number is passed over. An
operator that cannot be named is one of the tokens. That there is no expression is
seen on the first token. -/

namespace Abacus

/-- A number with no 64-bit integer for its lexeme. -/
def Token.isUnreadable (t : Token) : Bool := t.kind = .number ∧ Numeral.read? t.lexeme = none

theorem Token.isUnreadable_eq_false {t : Token} (h : t.kind ≠ .number) : t.isUnreadable = false := by
  simp [isUnreadable, h]

namespace Grammar

theorem Derivation.Means.find?_unreadable {d : Derivation level} (h : d.Means e) :
    d.tokens.find? Token.isUnreadable = none := by
  rw [List.find?_eq_none]
  intro t ht hu
  simp only [Token.isUnreadable, decide_eq_true_eq] at hu
  obtain ⟨v, hv⟩ := (h.legible t ht).number hu.1
  rw [Numeral.read?_eq_some_iff.mpr hv] at hu
  cases hu.2

theorem Bracket.Opens.find?_unreadable {b : Bracket} (ho : b.Opens opening) :
    opening.find? Token.isUnreadable = none := by
  rw [List.find?_eq_none]
  intro t ht
  simp [Token.isUnreadable_eq_false (ho.kind_ne_number t ht)]

theorem Reads.find?_unreadable
    (h : Reads limit call level depth tokens (.error (.numberOutOfRange n)) rest trace) :
    ∃ t, tokens.find? Token.isUnreadable = some t ∧ t.lexeme = n := by
  generalize ha : (.error (.numberOutOfRange n) : Answer) = answer at h
  induction h with
  | deeper _ _ ih | operandFails _ _ ih => exact ih ha
  | @rightFails _ _ _ _ _ _ _ op _ _ _ _ _ rule hl hop _ _ ihr =>
    obtain ⟨t, hfind, hlexeme⟩ := ihr ha
    obtain ⟨l, rfl, hm, -⟩ := hl.derivation
    have hop' : op.isUnreadable = false :=
      Token.isUnreadable_eq_false (hop ▸ rule.kind_ne_number)
    exact ⟨t, by simp [List.find?_append, hm.find?_unreadable, hop', hfind], hlexeme⟩
  | outOfRange ht hv =>
    cases ha
    exact ⟨_, List.find?_cons_of_pos (by simp [Token.isUnreadable, ht, hv]), rfl⟩
  | bodyFails ho _ ih =>
    obtain ⟨t, hfind, hlexeme⟩ := ih ha
    exact ⟨t, by simp [List.find?_append, ho.find?_unreadable, hfind], hlexeme⟩
  | @noBody _ _ _ _ _ b | @unclosed _ _ _ _ _ _ b => cases b <;> cases ha
  | _ => cases ha

theorem Reads.unknownOperator_mem
    (h : Reads limit call level depth tokens (.error (.unknownOperator o)) rest trace) :
    ∃ op ∈ tokens, op.kind.isOperator = true ∧ Operator.ofSymbol? op.lexeme = none := by
  generalize ha : (.error (.unknownOperator o) : Answer) = answer at h
  induction h with
  | deeper _ _ ih | operandFails _ _ ih => exact ih ha
  | rightFails _ hl _ _ _ ihr =>
    obtain ⟨op, hmem, hop⟩ := ihr ha
    exact ⟨op, hl.suffix.subset (List.mem_cons_of_mem _ hmem), hop⟩
  | unknownOperator rule hl hop _ ho =>
    refine ⟨_, hl.suffix.subset List.mem_cons_self, ?_, ho⟩
    cases rule <;> simp [hop, Token.Kind.isOperator]
  | bodyFails _ _ ih =>
    obtain ⟨op, hmem, hop⟩ := ih ha
    exact ⟨op, List.mem_append_right _ hmem, hop⟩
  | @noBody _ _ _ _ _ b | @unclosed _ _ _ _ _ _ b => cases b <;> cases ha
  | _ => cases ha

theorem Reads.stops_of_none (h : Reads limit call level depth tokens (.ok none) rest trace) :
    Stops begins tokens := by
  generalize ha : (.ok none : Answer) = answer at h
  induction h with
  | deeper _ _ ih | noOperand _ _ ih => exact ih ha
  | noGroup hs => exact hs
  | _ => cases ha

theorem reads_none (hs : Stops begins tokens) :
    Reads limit .same level depth tokens (.ok none) tokens .empty := by
  have hgroup : Reads limit .same .group depth tokens (.ok none) tokens .empty := .noGroup hs
  have hpower := Reads.noOperand .power hgroup
  have hterm := Reads.noOperand .term hpower
  have hsum := Reads.noOperand .sum hterm
  cases level <;> assumption

theorem Reads.answer_ne_noExpression (h : Reads limit call level depth tokens answer rest trace) :
    answer ≠ .error (.noExpression text) := by
  induction h with
  | deeper _ _ ih | operandFails _ _ ih | rightFails _ _ _ _ _ ih | bodyFails _ _ ih => exact ih
  | @noBody _ _ _ _ _ b | @unclosed _ _ _ _ _ _ b => cases b <;> exact nofun
  | _ => exact nofun

theorem exists_reads_of_error (h : Expr.ofTokens tokens = .error e) (he : e.aboutOrder = false) :
    ∃ rest trace, Reads (some maxDepth) .same .sum 0 tokens (.error e) rest trace := by
  obtain ⟨answer, rest, trace, hr⟩ := answers (some maxDepth) .same .sum 0 tokens
  rw [hr.ofTokens_eq] at h
  unfold verdict at h
  split at h <;> cases h
  · exact ⟨rest, trace, hr⟩
  · cases he
  · cases he

theorem ofTokens_eq_noExpression_iff :
    Expr.ofTokens tokens = .error (.noExpression text) ↔
      Stops begins tokens ∧ text = " ".intercalate (tokens.map Token.lexeme) := by
  constructor
  · intro h
    obtain ⟨answer, rest, trace, hr⟩ := answers (some maxDepth) .same .sum 0 tokens
    rw [hr.ofTokens_eq] at h
    unfold verdict at h
    split at h <;> cases h
    · exact absurd rfl hr.answer_ne_noExpression
    · obtain rfl := hr.rest_eq_of_none
      exact ⟨hr.stops_of_none, rfl⟩
  · rintro ⟨hs, rfl⟩
    exact (reads_none hs).ofTokens_eq

end Grammar

end Abacus
