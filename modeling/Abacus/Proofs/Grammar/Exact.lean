import Abacus.Proofs.Grammar.DescentLaws

/-!
# The parser is exact

The trees the parser builds are those of the derivations within the depth limit.
Soundness is an induction over the reading and completeness one over the
derivation; past the limit that is refused for its depth, wherever it crosses it.
-/

namespace Abacus

theorem Operator.ofSymbol?_eq_some_iff {op : Operator} :
    ofSymbol? text = some op ↔ text = op.symbol.toString := by
  constructor
  · intro h
    unfold ofSymbol? at h
    split at h <;> cases h <;> decide
  · rintro rfl
    exact op.ofSymbol?_symbol

namespace Grammar

-- ---------------------------------------------------------------------------
-- Soundness
-- ---------------------------------------------------------------------------

def Call.levels : Call → Nat
  | .same => 0
  | .below => 1

theorem Reads.derivation (h : Reads limit call level depth tokens (.ok (some e)) rest trace) :
    ∃ d : Derivation level, d.tokens ++ rest = tokens ∧ d.Means e ∧
      (Within limit depth → Within limit (depth + call.levels + d.nesting)) := by
  generalize ha : (.ok (some e) : Answer) = answer at h
  induction h generalizing e with
  | deeper hd _ ih =>
    obtain ⟨d, ht, hm, hn⟩ := ih ha
    exact ⟨d, ht, hm, fun _ => hn hd⟩
  | operand rule _ _ ih =>
    obtain ⟨d, ht, hm, hn⟩ := ih ha
    exact ⟨.operand rule d, ht, hm, hn⟩
  | binary rule _ hop _ ho ihl ihr =>
    cases ha
    obtain ⟨l, rfl, hlm, hln⟩ := ihl rfl
    obtain ⟨r, rfl, hrm, hrn⟩ := ihr rfl
    refine ⟨.binary rule l _ hop r, ?_, ?_, fun hle n hlimit => ?_⟩
    · simp [Derivation.tokens]
    · exact ⟨_, _, _, hlm, Operator.ofSymbol?_eq_some_iff.mp ho, hrm, rfl⟩
    · have := hln hle n hlimit
      have := hrn hle n hlimit
      simp only [Call.levels, Derivation.nesting] at *
      omega
  | number ht hv =>
    cases ha
    exact ⟨.number _ ht, rfl, ⟨_, Numeral.read?_eq_some_iff.mp hv, rfl⟩, id⟩
  | bracket ho _ hc ih =>
    cases ha
    obtain ⟨d, rfl, hm, hn⟩ := ih rfl
    refine ⟨.bracket _ _ ho d _ hc, ?_, ⟨_, hm, rfl⟩, fun hle n hlimit => ?_⟩
    · simp [Derivation.tokens]
    · have := hn hle n hlimit
      simp only [Call.levels, Derivation.nesting] at *
      omega
  | _ => cases ha

-- ---------------------------------------------------------------------------
-- Completeness
-- ---------------------------------------------------------------------------

theorem Reads.below_tooDeep (hd : depth ≤ n)
    (h : depth < n → ∃ rest trace,
      Reads (some n) .same level (depth + 1) tokens (.error (.tooDeep n)) rest trace) :
    ∃ rest trace, Reads (some n) .below level depth tokens (.error (.tooDeep n)) rest trace := by
  rcases Nat.lt_or_eq_of_le hd with hlt | rfl
  · obtain ⟨rest, trace, h⟩ := h hlt
    exact ⟨_, _, .deeper (within_some.mpr hlt) h⟩
  · exact ⟨_, _, .tooDeep rfl (Nat.le_refl _)⟩

namespace Derivation

theorem reads {d : Derivation level} (hm : d.Means e) (hr : Ends level rest)
    (hn : Within limit (depth + d.nesting)) :
    ∃ trace, Reads limit .same level depth (d.tokens ++ rest) (.ok (some e)) rest trace := by
  induction d generalizing e rest depth with
  | number t ht =>
    obtain ⟨v, hv, rfl⟩ := hm
    exact ⟨_, .number ht (Numeral.read?_eq_some_iff.mpr hv)⟩
  | bracket b opening ho body close hc ih =>
    obtain ⟨a, ha, rfl⟩ := hm
    have hbody : Within limit (depth + 1 + body.nesting) := hn.mono (by simp only [nesting]; omega)
    obtain ⟨trace, h⟩ := ih ha (ends_close hc) hbody
    have hread := Reads.bracket ho (.deeper (hbody.mono (by omega)) h) hc
    exact ⟨_, by simpa [tokens] using hread⟩
  | operand rule d ih =>
    obtain ⟨trace, h⟩ := ih hm (rule.ends_left hr) hn
    exact ⟨_, .operand rule h (rule.stops hr)⟩
  | binary rule l op hop r ihl ihr =>
    obtain ⟨a, operator, b, ha, ho, hb, rfl⟩ := hm
    have hleft : Within limit (depth + l.nesting) := hn.mono (by simp only [nesting]; omega)
    have hright : Within limit (depth + 1 + r.nesting) := hn.mono (by simp only [nesting]; omega)
    obtain ⟨trace, hl⟩ := ihl ha (rule.ends_operator hop) hleft
    obtain ⟨trace', h⟩ := ihr hb (rule.ends_right hr) hright
    have hread := Reads.binary rule hl hop (.deeper (hright.mono (by omega)) h)
      (Operator.ofSymbol?_eq_some_iff.mpr ho)
    exact ⟨_, by simpa [tokens] using hread⟩

theorem reads_tooDeep {d : Derivation level} (hm : d.Means e) (hd : depth ≤ n)
    (hn : n < depth + d.nesting) :
    ∃ rest' trace, Reads (some n) .same level depth (d.tokens ++ rest) (.error (.tooDeep n)) rest'
      trace := by
  induction d generalizing e rest depth with
  | number t ht => simp only [nesting] at hn; omega
  | bracket b opening ho body close hc ih =>
    obtain ⟨a, ha, rfl⟩ := hm
    simp only [nesting] at hn
    obtain ⟨rest', trace, h⟩ := Reads.below_tooDeep hd fun hlt => ih ha hlt (by omega)
    simp only [tokens, List.append_assoc]
    exact ⟨_, _, .bodyFails ho h⟩
  | operand rule d ih =>
    obtain ⟨rest', trace, h⟩ := ih hm hd hn
    exact ⟨_, _, .operandFails rule h⟩
  | binary rule l op hop r ihl ihr =>
    obtain ⟨a, operator, b, ha, ho, hb, rfl⟩ := hm
    simp only [nesting] at hn
    simp only [tokens, List.append_assoc, List.cons_append]
    -- the left operand is refused, or it is read and the right one is refused
    rcases Nat.lt_or_ge n (depth + l.nesting) with hlt | hge
    · obtain ⟨rest', trace, h⟩ := ihl ha hd hlt
      exact ⟨_, _, .operandFails rule h⟩
    · obtain ⟨trace, hl⟩ := reads ha (rule.ends_operator hop) (within_some.mpr hge)
      obtain ⟨rest', trace', h⟩ := Reads.below_tooDeep hd fun hlt => ihr hb hlt (by omega)
      exact ⟨_, _, .rightFails rule hl hop h⟩

theorem exists_means {d : Derivation level} (h : ∀ t ∈ d.tokens, t.Legible) : ∃ e, d.Means e := by
  induction d with
  | number t ht =>
    obtain ⟨v, hv⟩ := (h t (by simp [tokens])).number ht
    exact ⟨_, v, hv, rfl⟩
  | bracket b opening ho body close hc ih =>
    obtain ⟨a, ha⟩ := ih fun t ht => h t (by simp [tokens, ht])
    exact ⟨_, a, ha, rfl⟩
  | operand rule d ih => exact ih h
  | binary rule l op hop r ihl ihr =>
    obtain ⟨a, ha⟩ := ihl fun t ht => h t (by simp [tokens, ht])
    obtain ⟨b, hb⟩ := ihr fun t ht => h t (by simp [tokens, ht])
    have hkind : op.kind.isOperator = true := by cases rule <;> simp [hop, Token.Kind.isOperator]
    obtain ⟨operator, ho⟩ := (h op (by simp [tokens])).operator hkind
    exact ⟨_, a, operator, b, ha, ho, hb, rfl⟩

theorem Means.unique {d : Derivation level} (h : d.Means e) (h' : d.Means e') : e = e' := by
  induction d generalizing e e' with
  | number t ht =>
    obtain ⟨v, hv, rfl⟩ := h
    obtain ⟨v', hv', rfl⟩ := h'
    rw [← Numeral.read?_eq_some_iff] at hv hv'
    rw [Option.some.inj (hv.symm.trans hv')]
  | bracket b opening ho body close hc ih =>
    obtain ⟨a, ha, rfl⟩ := h
    obtain ⟨a', ha', rfl⟩ := h'
    rw [ih ha ha']
  | operand rule d ih => exact ih h h'
  | binary rule l op hop r ihl ihr =>
    obtain ⟨a, operator, b, ha, ho, hb, rfl⟩ := h
    obtain ⟨a', operator', b', ha', ho', hb', rfl⟩ := h'
    rw [← Operator.ofSymbol?_eq_some_iff] at ho ho'
    rw [ihl ha ha', ihr hb hb', Option.some.inj (ho.symm.trans ho')]

end Derivation

theorem ofTokens_eq_ok_iff :
    Expr.ofTokens tokens = .ok e ↔
      ∃ trace, Reads (some maxDepth) .same .sum 0 tokens (.ok (some e)) [] trace := by
  constructor
  · intro h
    obtain ⟨answer, rest, trace, hr⟩ := answers (some maxDepth) .same .sum 0 tokens
    rw [hr.ofTokens_eq] at h
    unfold verdict at h
    split at h <;> cases h
    exact ⟨trace, hr⟩
  · rintro ⟨trace, hr⟩
    exact hr.ofTokens_eq

theorem ofTokens_eq_ok_iff_means :
    Expr.ofTokens tokens = .ok e ↔
      ∃ d : Derivation .sum, d.tokens = tokens ∧ d.nesting ≤ maxDepth ∧ d.Means e := by
  rw [ofTokens_eq_ok_iff]
  constructor
  · rintro ⟨trace, h⟩
    obtain ⟨d, rfl, hm, hn⟩ := h.derivation
    have hwithin := within_some.mp (hn (by simp))
    exact ⟨d, by simp, by simpa [Call.levels] using hwithin, hm⟩
  · rintro ⟨d, rfl, hn, hm⟩
    have hwithin : Within (some maxDepth) (0 + d.nesting) := by simpa using hn
    simpa using d.reads hm ends_nil hwithin

theorem ofTokens_eq_tooDeep {d : Derivation .sum} (hm : d.Means e) (hn : maxDepth < d.nesting) :
    Expr.ofTokens d.tokens = .error (.tooDeep maxDepth) := by
  have hbeyond : maxDepth < 0 + d.nesting := by simpa using hn
  obtain ⟨rest, trace, h⟩ := d.reads_tooDeep hm (Nat.zero_le _) hbeyond
  rw [List.append_nil] at h
  exact h.ofTokens_eq

/-- A tree is built exactly if it is the tree of a derivation of the tokens
within the depth limit, all lexemes legible. Legible lexemes are all that a
derivation needs to have a tree, and neither the derivation nor the tree is
ever a matter of choice. -/
theorem ofTokens_iff_derivation (tokens : List Token) :
    (∀ e, Expr.ofTokens tokens = .ok e ↔
      ∃ d : Derivation .sum, d.tokens = tokens ∧ (∀ t ∈ tokens, t.Legible) ∧
        d.nesting ≤ maxDepth ∧ d.Means e) ∧
    ((∃ e, Expr.ofTokens tokens = .ok e) ↔
      ∃ d : Derivation .sum, d.tokens = tokens ∧ (∀ t ∈ tokens, t.Legible) ∧
        d.nesting ≤ maxDepth) ∧
    ∀ (d d' : Derivation .sum) (e e' : Expr), d.tokens = tokens → d'.tokens = tokens →
      d.Means e → d'.Means e' → d = d' ∧ e = e' := by
  have hexact : ∀ e, Expr.ofTokens tokens = .ok e ↔
      ∃ d : Derivation .sum, d.tokens = tokens ∧ (∀ t ∈ tokens, t.Legible) ∧
        d.nesting ≤ maxDepth ∧ d.Means e := by
    intro e
    rw [ofTokens_eq_ok_iff_means]
    constructor
    · rintro ⟨d, rfl, hn, hm⟩
      exact ⟨d, rfl, hm.legible, hn, hm⟩
    · rintro ⟨d, ht, -, hn, hm⟩
      exact ⟨d, ht, hn, hm⟩
  refine ⟨hexact, ?_, ?_⟩
  · constructor
    · rintro ⟨e, h⟩
      obtain ⟨d, ht, hl, hn, -⟩ := (hexact e).mp h
      exact ⟨d, ht, hl, hn⟩
    · rintro ⟨d, rfl, hl, hn⟩
      obtain ⟨e, hm⟩ := d.exists_means hl
      exact ⟨e, (hexact e).mpr ⟨d, rfl, hl, hn, hm⟩⟩
  · rintro d d' e e' rfl ht hm hm'
    obtain ⟨rfl, -⟩ := Derivation.unique (congrArg (· ++ []) ht) ends_nil ends_nil
    exact ⟨rfl, hm.unique hm'⟩

theorem nine_minus_five_minus_two :
    let number (digit : Char) : Token := ⟨.number, String.ofList [digit]⟩
    let minus : Token := ⟨.sumOp, "-"⟩
    let tokens := [number '9', minus, number '5', minus, number '2']
    let tree := Expr.binary .sub (.num 9) (.binary .sub (.num 5) (.num 2))
    Expr.ofTokens tokens = .ok tree ∧ ∀ (d : Derivation .sum) (e : Expr), d.tokens = tokens →
      d.Means e → e = tree := by
  intro number minus tokens tree
  let term (digit : Char) : Derivation .term :=
    .operand .term (.operand .power (.number (number digit) rfl))
  let d : Derivation .sum :=
    .binary .sum (term '9') minus rfl (.binary .sum (term '5') minus rfl (.operand .sum (term '2')))
  have hd : ∀ c ∈ Text.digits,
      Numeral.Spells (number c).lexeme.toList (Nat.ofDigitChars 10 [c] 0) := by
    intro c hc
    rw [String.toList_ofList]
    exact .plain ⟨by simp, by simpa using hc⟩
  have hmeans : d.Means tree :=
    ⟨_, .sub, _, ⟨9, hd '9' (by decide), rfl⟩, rfl,
      ⟨_, .sub, _, ⟨5, hd '5' (by decide), rfl⟩, rfl, ⟨2, hd '2' (by decide), rfl⟩, rfl⟩, rfl⟩
  obtain ⟨hread, -, hunique⟩ := ofTokens_iff_derivation tokens
  exact ⟨(hread tree).mpr ⟨d, rfl, hmeans.legible, by decide, hmeans⟩,
    fun d' e ht hm => (hunique d' d e tree ht rfl hm hmeans).2⟩

end Grammar

end Abacus
