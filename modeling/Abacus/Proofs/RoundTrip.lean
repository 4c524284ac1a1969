import Abacus.Expr.Written
import Abacus.Proofs.CalculationLaws
import Abacus.Proofs.Expr.Numbers
import Abacus.Proofs.Grammar.Exact
import Abacus.Proofs.Token.StreamLaws

/-!
# Written expressions read back

Each part of a written expression is a group, so the tree that comes back can only
be the same. Two things stand in the way of reading it: the nesting may exceed the
limit, and a negative number is written with a sign that no number token has.
-/

namespace Abacus

namespace Token

def minus : Token := ⟨.sumOp, "-"⟩

def radical : Token := ⟨.sqrt, "sqrt"⟩

def leftParen : Token := ⟨.openParen, "("⟩

def rightParen : Token := ⟨.closeParen, ")"⟩

def ofNat (n : Nat) : Token := ⟨.number, String.ofList (Nat.toDigits 10 n)⟩

def ofOperator : Operator → Token
  | .add => ⟨.sumOp, "+"⟩
  | .sub => minus
  | .mul => ⟨.termOp, "*"⟩
  | .div => ⟨.termOp, "/"⟩
  | .rem => ⟨.termOp, "%"⟩
  | .pow => ⟨.powerOp, "^"⟩

end Token

namespace Expr

/-- How deep the written expression nests. -/
def depth : Expr → Nat
  | .num _ => 0
  | .sqrt operand => 1 + operand.depth
  | .binary _ left right => 1 + max left.depth (1 + right.depth)

def tokens : Expr → List Token
  | .num value =>
    if value.toInt < 0 then [.minus, .ofNat value.toInt.natAbs] else [.ofNat value.toInt.natAbs]
  | .sqrt operand => .radical :: .leftParen :: (operand.tokens ++ [.rightParen])
  | .binary op left right =>
    .leftParen :: (left.tokens ++ .ofOperator op :: (right.tokens ++ [.rightParen]))

end Expr

theorem Token.lexeme_ofOperator (op : Operator) :
    (ofOperator op).lexeme = op.symbol.toString := by
  cases op <;> rfl

theorem Token.isLexeme_ofOperator (op : Operator) :
    (ofOperator op).kind.Lexeme (ofOperator op).lexeme.toList := by
  cases op <;> simp [ofOperator, minus, Kind.Lexeme]

theorem Token.isOperator_ofOperator (op : Operator) : (ofOperator op).kind.isOperator = true := by
  cases op <;> rfl

theorem Token.isLexeme_ofNat (n : Nat) : (ofNat n).kind.Lexeme (ofNat n).lexeme.toList := by
  rw [ofNat, String.toList_ofList]
  exact Numeral.isDigits_toDigits n

theorem Token.Kind.ends_of_isOperator {kind : Kind} (h : kind.isOperator = true) :
    kind.Ends rest := by
  rintro rfl
  cases h

namespace Expr

open Token (Tokenizes)

theorem chars_num (v : Int64) : (num v).chars = (Numeral.write v.toInt).toList := rfl

theorem chars_sqrt :
    (sqrt operand).chars = 's' :: 'q' :: 'r' :: 't' :: '(' :: (operand.chars ++ [')']) := rfl

theorem chars_binary : (binary op left right).chars =
    '(' :: (left.chars ++ ' ' :: op.symbol :: ' ' :: (right.chars ++ [')'])) := rfl

theorem tokenizes_chars (e : Expr) {more : List Token} (h : Tokenizes rest (.ok more))
    (hr : Stops (· ∈ Text.digits) rest) : Tokenizes (e.chars ++ rest) (.ok (e.tokens ++ more)) := by
  have hclose : ∀ {rest}, Stops (· ∈ Text.digits) (')' :: rest) := stops_cons (by decide)
  have hspace : ∀ {rest}, Stops (· ∈ Text.digits) (' ' :: rest) := stops_cons (by decide)
  induction e generalizing rest more with
  | num value =>
    have hnumber := h.lexeme (Token.isLexeme_ofNat value.toInt.natAbs) fun _ => hr
    simp only [chars_num, tokens, Numeral.write, String.toList_ofList]
    split
    · have hminus := hnumber.lexeme (t := .minus) ⟨'-', by simp, rfl⟩ nofun
      simpa [Token.ofNat, Token.minus] using hminus
    · simpa [Token.ofNat] using hnumber
  | sqrt operand ih =>
    have hright := h.lexeme (t := .rightParen) rfl nofun
    have hoperand := ih hright hclose
    have hleft := hoperand.lexeme (t := .leftParen) rfl nofun
    have hroot := hleft.lexeme (t := .radical) rfl nofun
    simpa [chars_sqrt, tokens, Token.radical, Token.leftParen, Token.rightParen] using hroot
  | binary op left right ihl ihr =>
    have hright := h.lexeme (t := .rightParen) rfl nofun
    have hoperand := (ihr hright hclose).after_gap Text.isBlank_space
    have hop := hoperand.lexeme (Token.isLexeme_ofOperator op)
      (Token.Kind.ends_of_isOperator (Token.isOperator_ofOperator op))
    have hboth := ihl (hop.after_gap Text.isBlank_space) hspace
    have hleft := hboth.lexeme (t := .leftParen) rfl nofun
    simpa [chars_binary, tokens, Token.leftParen, Token.rightParen, Token.lexeme_ofOperator]
      using hleft

theorem tokenize_written (e : Expr) : Token.ofText e.written = .ok e.tokens := by
  have h := e.tokenizes_chars (.done Text.isBlank_nil) (by simp [Stops])
  rw [Token.ofText_eq_iff, written, String.toList_ofList]
  simpa using h

end Expr

-- ---------------------------------------------------------------------------
-- The tree
-- ---------------------------------------------------------------------------

namespace Grammar.Derivation

def between (op : Operator) (rule : Chain level left (Token.ofOperator op).kind right)
    (l r : Derivation .group) : Derivation level :=
  .binary rule (l.raise left) (.ofOperator op) rfl (r.raise right)

def join (l r : Derivation .group) : Operator → Derivation .sum
  | .add => between .add .sum l r
  | .sub => between .sub .sum l r
  | .mul => .operand .sum (between .mul .term l r)
  | .div => .operand .sum (between .div .term l r)
  | .rem => .operand .sum (between .rem .term l r)
  | .pow => .operand .sum (.operand .term (between .pow .power l r))

variable {l r : Derivation .group}

@[simp] theorem tokens_join : (join l r op).tokens = l.tokens ++ .ofOperator op :: r.tokens := by
  cases op <;> simp [join, between, tokens]

@[simp] theorem nesting_join : (join l r op).nesting = max l.nesting (1 + r.nesting) := by
  cases op <;> simp [join, between, nesting]

theorem Means.join (ha : l.Means a) (hb : r.Means b) : (join l r op).Means (.binary op a b) := by
  have hbetween : ∀ {level left right} (rule : Chain level left (Token.ofOperator op).kind right),
      (between op rule l r).Means (.binary op a b) := fun _ =>
    ⟨a, op, b, means_raise.mpr ha, Token.lexeme_ofOperator op, means_raise.mpr hb, rfl⟩
  cases op with
  | add | sub => exact hbetween .sum
  | mul | div | rem => exact hbetween .term
  | pow => exact hbetween .power

end Grammar.Derivation

namespace Expr

open Grammar (Derivation)

/-- The derivation of the written expression, for the absolute values of its numbers. -/
def group : Expr → Derivation .group
  | .num value => .number (.ofNat value.toInt.natAbs) rfl
  | .sqrt operand =>
    .bracket .sqrt [.radical, .leftParen] (.sqrt rfl rfl) (operand.group.raise .sum) .rightParen rfl
  | .binary op left right =>
    .bracket .paren [.leftParen] (.paren rfl) (.join left.group right.group op) .rightParen rfl

theorem nesting_group (e : Expr) : e.group.nesting = e.depth := by
  induction e with
  | num value => rfl
  | sqrt operand ih => simp [group, Derivation.nesting, depth, ih]
  | binary op left right ihl ihr => simp [group, Derivation.nesting, depth, ihl, ihr]

theorem tokens_group {e : Expr} (h : ∀ v ∈ e.numbers, 0 ≤ v.toInt) : e.group.tokens = e.tokens := by
  induction e with
  | num value =>
    have hv := h value (by simp [numbers])
    simp [group, Derivation.tokens, tokens, Int.not_lt.mpr hv]
  | sqrt operand ih => simp [group, Derivation.tokens, tokens, ih h]
  | binary op left right ihl ihr =>
    have hl := ihl fun v hv => h v (by simp [numbers, hv])
    have hr := ihr fun v hv => h v (by simp [numbers, hv])
    simp [group, Derivation.tokens, tokens, hl, hr]

theorem means_group {e : Expr} (h : ∀ v ∈ e.numbers, 0 ≤ v.toInt) : e.group.Means e := by
  induction e with
  | num value =>
    have hv := h value (by simp [numbers])
    have hspells := Numeral.spells_toDigits value.toInt.natAbs
    rw [Int.natAbs_of_nonneg hv] at hspells
    exact ⟨value, by simpa [Token.ofNat] using hspells, rfl⟩
  | sqrt operand ih => exact ⟨operand, Derivation.means_raise.mpr (ih h), rfl⟩
  | binary op left right ihl ihr =>
    have hl := ihl fun v hv => h v (by simp [numbers, hv])
    have hr := ihr fun v hv => h v (by simp [numbers, hv])
    exact ⟨_, hl.join hr, rfl⟩

end Expr

-- ---------------------------------------------------------------------------
-- Signs
-- ---------------------------------------------------------------------------

theorem Token.number_ne_of_isOperator {t : Token} (h : t.kind.isOperator = true) :
    t.kind ≠ .number := by
  intro hk
  rw [hk] at h
  cases h

theorem Grammar.Derivation.operators_tokens (d : Derivation level) :
    d.tokens.countP (·.kind.isOperator) + 1 = d.tokens.countP (·.kind = .number) := by
  induction d with
  | number t ht => simp [tokens, ht, Token.Kind.isOperator]
  | bracket b opening ho body close hc ih =>
    cases ho <;> simp_all [tokens, Token.Kind.isOperator]
  | operand rule d ih => exact ih
  | binary rule l op hop r ihl ihr =>
    have hoperator : op.kind.isOperator = true := by
      cases rule <;> simp [hop, Token.Kind.isOperator]
    have hnumber := Token.number_ne_of_isOperator hoperator
    simp only [tokens, List.countP_append, List.countP_cons, hoperator, hnumber, ↓reduceIte,
      decide_false, Bool.false_eq_true, add_zero]
    omega

theorem Expr.operators_tokens (e : Expr) :
    e.tokens.countP (·.kind.isOperator) + 1 =
      e.tokens.countP (·.kind = .number) + e.numbers.countP (·.toInt < 0) := by
  have hl : Token.leftParen.kind.isOperator = false ∧ Token.leftParen.kind ≠ .number :=
    ⟨rfl, nofun⟩
  have hr : Token.rightParen.kind.isOperator = false ∧ Token.rightParen.kind ≠ .number :=
    ⟨rfl, nofun⟩
  have hs : Token.radical.kind.isOperator = false ∧ Token.radical.kind ≠ .number := ⟨rfl, nofun⟩
  induction e with
  | num value =>
    simp only [tokens, numbers]
    split <;> simp_all [Token.minus, Token.ofNat, Token.Kind.isOperator]
  | sqrt operand ih => simpa [tokens, numbers, hl, hr, hs] using ih
  | binary op left right ihl ihr =>
    have hoperator := Token.isOperator_ofOperator op
    have hnumber := Token.number_ne_of_isOperator hoperator
    simp only [tokens, numbers, List.countP_append, List.countP_cons, List.countP_nil, hl, hr,
      hoperator, hnumber, ↓reduceIte, decide_false, Bool.false_eq_true, add_zero]
    omega

theorem Expr.ofTokens_tokens_of_neg {e : Expr} (h : ∃ v ∈ e.numbers, v.toInt < 0) :
    Expr.ofTokens e.tokens ≠ .ok e' := by
  intro hok
  obtain ⟨d, ht, -, -⟩ := Grammar.ofTokens_eq_ok_iff_means.mp hok
  have hd := d.operators_tokens
  have he := e.operators_tokens
  have hpos : 0 < e.numbers.countP (·.toInt < 0) := List.countP_pos_iff.mpr (by simpa using h)
  rw [ht] at hd
  omega

namespace Expr

theorem ofText_written_eq (e : Expr) :
    ofText e.written =
      (ofTokens e.tokens).mapError fun e' => .syntactic (Calculation.asTyped e.written e') :=
  ofText_eq e.tokenize_written

theorem ofText_written_of_le {e : Expr} (h : ∀ v ∈ e.numbers, 0 ≤ v.toInt)
    (hd : e.depth ≤ Grammar.maxDepth) : ofText e.written = .ok e := by
  have hread : ofTokens e.tokens = .ok e := by
    refine Grammar.ofTokens_eq_ok_iff_means.mpr ⟨e.group.raise .sum, ?_, ?_, ?_⟩
    · simpa using e.tokens_group h
    · simpa [nesting_group] using hd
    · simpa using means_group h
  rw [ofText_written_eq, hread, mapError_ok]

theorem ofText_written_of_lt {e : Expr} (h : ∀ v ∈ e.numbers, 0 ≤ v.toInt)
    (hd : Grammar.maxDepth < e.depth) :
    ofText e.written = .error (.syntactic (.tooDeep Grammar.maxDepth)) := by
  have hm : (e.group.raise .sum).Means e := Grammar.Derivation.means_raise.mpr (means_group h)
  have hdeep := Grammar.ofTokens_eq_tooDeep hm (by simpa [nesting_group] using hd)
  rw [Grammar.Derivation.tokens_raise, tokens_group h] at hdeep
  rw [ofText_written_eq, hdeep]
  rfl

theorem ofText_written_of_neg {e : Expr} (h : ∃ v ∈ e.numbers, v.toInt < 0) :
    ∃ failure, ofText e.written = .error failure := by
  rw [ofText_written_eq]
  cases hread : ofTokens e.tokens with
  | ok e' => exact absurd hread (ofTokens_tokens_of_neg h)
  | error failure => exact ⟨_, rfl⟩

/-- What reading a written expression gives: the expression itself unless it
nests too deep or has a negative number, and never another one. -/
theorem ofText_written (e : Expr) :
    ((∀ v ∈ e.numbers, 0 ≤ v) → e.depth ≤ Grammar.maxDepth → ofText e.written = .ok e) ∧
    ((∀ v ∈ e.numbers, 0 ≤ v) → Grammar.maxDepth < e.depth →
      ofText e.written = .error (.syntactic (.tooDeep Grammar.maxDepth))) ∧
    ((∃ v ∈ e.numbers, v < 0) → ∃ failure, ofText e.written = .error failure) ∧
    ∀ e', ofText e.written = .ok e' → e' = e := by
  simp only [Checked.nonneg_iff, Checked.lt_zero_iff]
  refine ⟨ofText_written_of_le, ofText_written_of_lt, ofText_written_of_neg, fun e' h => ?_⟩
  by_cases hneg : ∃ v ∈ e.numbers, v.toInt < 0
  · obtain ⟨failure, hf⟩ := ofText_written_of_neg hneg
    rw [hf] at h
    cases h
  have hnonneg : ∀ v ∈ e.numbers, 0 ≤ v.toInt := by simpa using hneg
  rcases Nat.lt_or_ge Grammar.maxDepth e.depth with hd | hd
  · rw [ofText_written_of_lt hnonneg hd] at h
    cases h
  · rw [ofText_written_of_le hnonneg hd] at h
    cases h
    rfl

theorem ofText_written_three_kinds :
    ofText (binary .pow (num 2) (num 3)).written = .ok (binary .pow (num 2) (num 3)) ∧
    ofText (Nat.repeat sqrt 129 (num 1)).written = .error (.syntactic (.tooDeep 128)) ∧
    (∃ failure, ofText (num (-1)).written = .error failure) := by
  have hdeep : 128 < (Nat.repeat sqrt 129 (num 1)).depth := by decide +kernel
  have hone : ∀ v ∈ (Nat.repeat sqrt 129 (num 1)).numbers, 0 ≤ v := by simp [Nat.repeat, numbers]
  exact ⟨(ofText_written _).1 (by simp [numbers]) (by decide), (ofText_written _).2.1 hone hdeep,
    (ofText_written _).2.2.1 ⟨-1, by simp [numbers], by decide⟩⟩

end Expr

end Abacus
