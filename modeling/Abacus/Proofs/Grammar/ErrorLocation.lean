import Abacus.Proofs.Grammar.Exact
import Abacus.Proofs.Grammar.Sentences

/-!
# Where errors are reported

What is in front of the place of an error is viable (`Reads.error_located`). That
nothing more is follows from one token behind it: that token decides the answer
(`Reads.lookahead`), while a sentence has no error about the order of its tokens
(`Derivation.readsThrough`).
-/

namespace Abacus

/-- The tokens are in no order that an expression has. The other errors are
about a lexeme or the depth. -/
def SyntaxError.aboutOrder : SyntaxError → Bool
  | .numberOutOfRange _ | .tooDeep _ | .unknownOperator _ => false
  | _ => true

namespace Grammar

/-- The error names what is wrong after the tokens `p`, with `rest` behind them. -/
inductive Fits (p rest : List Token) : SyntaxError → Prop
  | missingOperand : p.getLast? = some op → op.kind.isOperator = true →
      Fits p rest (.missingOperand op.lexeme)
  | missingRadicalParen : p.getLast? = some r → r.kind = .sqrt → Fits p rest .missingRadicalParen
  | emptyBracket : p.getLast? = some o → o.kind = .openParen → innermost? p = some b →
      Fits p rest b.emptyError
  | unclosedBracket : EndsInOperand p → innermost? p = some b → Fits p rest b.unclosedError
  | trailing : Sentence (p.map Token.kind) → rest ≠ [] →
      Fits p rest (.trailing (rest.map Token.lexeme))
  | noExpression : p = [] → Fits p rest (.noExpression (" ".intercalate (rest.map Token.lexeme)))

/-- No sentence goes on from `p` with the next token, and without one `p` is none itself. -/
def Blocked (p : List Token) : List Token → Prop
  | [] => ¬ Sentence (p.map Token.kind)
  | t :: _ => ¬ Viable ((p ++ [t]).map Token.kind)

def cause (p rest : List Token) : SyntaxError :=
  match p.getLast? with
  | none => .noExpression (" ".intercalate (rest.map Token.lexeme))
  | some t =>
    if t.kind.isOperator then .missingOperand t.lexeme
    else if t.kind = .sqrt then .missingRadicalParen
    else match innermost? p with
      | none => .trailing (rest.map Token.lexeme)
      | some b => if t.kind = .openParen then b.emptyError else b.unclosedError

theorem cause_of_operand (h : EndsInOperand p) :
    cause p rest = match innermost? p with
      | none => .trailing (rest.map Token.lexeme)
      | some b => b.unclosedError := by
  obtain ⟨t, ht, hk⟩ := h.getLast?
  simp only [List.mem_cons, List.not_mem_nil, or_false] at hk
  rcases hk with hk | hk <;> simp [cause, ht, hk, Token.Kind.isOperator]

theorem Fits.eq_cause (h : Fits p rest e) : e = cause p rest := by
  cases h with
  | missingOperand ht hk => simp [cause, ht, hk]
  | missingRadicalParen ht hk => simp [cause, ht, hk, Token.Kind.isOperator]
  | emptyBracket ht hk hb => simp [cause, ht, hk, hb, Token.Kind.isOperator]
  | unclosedBracket he hb => rw [cause_of_operand he, hb]
  | trailing hs hr =>
    obtain ⟨d, rfl⟩ := sentence_iff.mp hs
    have hnone : innermost? ([] ++ d.tokens) = none := d.innermost?_append
    rw [List.nil_append] at hnone
    rw [cause_of_operand d.endsInOperand, hnone]
  | noExpression hp => simp [cause, hp]

-- ---------------------------------------------------------------------------
-- In front of the place
-- ---------------------------------------------------------------------------

theorem last_ne_sqrt (rule : Chain level left kind right) (hop : op.kind = kind) :
    (tokens ++ [op]).getLast?.map Token.kind ≠ some .sqrt := by
  cases rule <;> simp [hop]

theorem Bracket.Opens.last_ne_sqrt {b : Bracket} (ho : b.Opens opening) :
    (tokens ++ opening).getLast?.map Token.kind ≠ some .sqrt := by
  obtain ⟨o, hlast, hkind⟩ := ho.getLast? tokens
  simp [hlast, hkind]

/-- What was read before an error begins a derivation, and the error fits it,
after anything that does not end in the root of a parenthesis read here. -/
theorem Reads.error_located
    (h : Reads limit call level depth tokens (.error e) rest trace) (he : e.aboutOrder = true) :
    ∃ taken, tokens = taken ++ rest ∧ Begun level taken ∧
      ∀ before, before.getLast?.map Token.kind ≠ some .sqrt → Fits (before ++ taken) rest e := by
  generalize ha : (.error e : Answer) = answer at h
  induction h with
  | tooDeep => cases ha; cases he
  | outOfRange => cases ha; cases he
  | unknownOperator => cases ha; cases he
  | deeper _ _ ih => exact ih ha
  | operandFails rule _ ih =>
    obtain ⟨taken, rfl, hb, hf⟩ := ih ha
    exact ⟨taken, rfl, hb.operand rule, hf⟩
  | rightFails rule hl hop _ _ ihr =>
    obtain ⟨taken, rfl, hb, hf⟩ := ihr ha
    obtain ⟨l, rfl, -⟩ := hl.derivation
    refine ⟨l.tokens ++ _ :: taken, by simp, hb.rightOperand rule l hop, fun before hbefore => ?_⟩
    have h := hf (before ++ l.tokens ++ [_]) (last_ne_sqrt rule hop)
    simpa using h
  | noRight rule hl hop hr =>
    cases ha
    obtain rfl := hr.rest_eq_of_none
    obtain ⟨l, rfl, -⟩ := hl.derivation
    refine ⟨l.tokens ++ [_], by simp, (begun_nil _).rightOperand rule l hop, fun before _ => ?_⟩
    refine .missingOperand (by simp) ?_
    cases rule <;> simp [hop, Token.Kind.isOperator]
  | bareRadical ht =>
    cases ha
    exact ⟨[_], rfl, begun_radical ht, fun before _ => .missingRadicalParen (by simp) ht⟩
  | bodyFails ho _ ih =>
    obtain ⟨taken, rfl, hb, hf⟩ := ih ha
    refine ⟨_ ++ taken, (List.append_assoc ..).symm, hb.body ho, fun before hbefore => ?_⟩
    have h := hf (before ++ _) ho.last_ne_sqrt
    simpa using h
  | noBody ho hr =>
    cases ha
    obtain rfl := hr.rest_eq_of_none
    refine ⟨_, rfl, begun_opening ho, fun before hbefore => ?_⟩
    obtain ⟨o, hlast, hkind⟩ := ho.getLast? before
    exact .emptyBracket hlast hkind (ho.innermost?_append hbefore)
  | unclosed ho hr =>
    cases ha
    obtain ⟨body, rfl, -⟩ := hr.derivation
    refine ⟨_ ++ body.tokens, (List.append_assoc ..).symm, body.begun.body ho,
      fun before hbefore => ?_⟩
    rw [← List.append_assoc]
    refine .unclosedBracket body.endsInOperand.append ?_
    rw [body.innermost?_append, ho.innermost?_append hbefore]
  | _ => cases ha

-- ---------------------------------------------------------------------------
-- Behind the place
-- ---------------------------------------------------------------------------

/-- The tokens are read up to `rest`, or an error is met that is not about their order. -/
def ReadsThrough (limit : Option Nat) (call : Call) (level : Level) (depth : Nat)
    (tokens rest : List Token) : Prop :=
  (∃ e trace, Reads limit call level depth tokens (.ok (some e)) rest trace) ∨
  ∃ e rest' trace, Reads limit call level depth tokens (.error e) rest' trace ∧ e.aboutOrder = false

theorem ReadsThrough.below (h : ReadsThrough limit .same level (depth + 1) tokens rest) :
    ReadsThrough limit .below level depth tokens rest := by
  rcases within_or limit depth with hd | ⟨n, hn, hle⟩
  · rcases h with ⟨e, trace, h⟩ | ⟨e, rest', trace, h, he⟩
    · exact .inl ⟨e, _, .deeper hd h⟩
    · exact .inr ⟨e, rest', _, .deeper hd h, he⟩
  · exact .inr ⟨_, _, _, .tooDeep hn hle, rfl⟩

theorem Derivation.readsThrough (d : Derivation level) (hr : Ends level rest) :
    ReadsThrough limit .same level depth (d.tokens ++ rest) rest := by
  induction d generalizing rest depth with
  | number t ht =>
    cases hv : Numeral.read? t.lexeme with
    | some v => exact .inl ⟨_, _, .number ht hv⟩
    | none => exact .inr ⟨_, _, _, .outOfRange ht hv, rfl⟩
  | bracket b opening ho body close hc ih =>
    simp only [tokens, List.append_assoc, List.singleton_append]
    rcases (ih (ends_close hc)).below with ⟨e, trace, h⟩ | ⟨e, rest', trace, h, he⟩
    · exact .inl ⟨_, _, .bracket ho h hc⟩
    · exact .inr ⟨_, _, _, .bodyFails ho h, he⟩
  | operand rule d ih =>
    rcases ih (rule.ends_left hr) with ⟨e, trace, h⟩ | ⟨e, rest', trace, h, he⟩
    · exact .inl ⟨_, _, .operand rule h (rule.stops hr)⟩
    · exact .inr ⟨_, _, _, .operandFails rule h, he⟩
  | binary rule l op hop r ihl ihr =>
    simp only [tokens, List.append_assoc, List.cons_append]
    rcases ihl (rule.ends_operator hop) with ⟨a, trace, hl⟩ | ⟨e, rest', trace, hl, he⟩
    · rcases (ihr (rule.ends_right hr)).below with ⟨b, trace', h⟩ | ⟨e, rest', trace', h, he⟩
      · cases ho : Operator.ofSymbol? op.lexeme with
        | some operator => exact .inl ⟨_, _, .binary rule hl hop h ho⟩
        | none => exact .inr ⟨_, _, _, .unknownOperator rule hl hop h ho, rfl⟩
      · exact .inr ⟨_, _, _, .rightFails rule hl hop h, he⟩
    · exact .inr ⟨_, _, _, .operandFails rule hl, he⟩

theorem Derivation.not_aboutOrder (d : Derivation .sum) (h : Expr.ofTokens d.tokens = .error e) :
    ¬ e.aboutOrder = true := by
  have hread : ReadsThrough (some maxDepth) .same .sum 0 (d.tokens ++ []) [] :=
    d.readsThrough ends_nil
  rw [List.append_nil] at hread
  rcases hread with ⟨a, trace, hr⟩ | ⟨e', rest', trace, hr, he⟩
  · rw [hr.ofTokens_eq] at h
    cases h
  · rw [hr.ofTokens_eq] at h
    cases h
    simp [he]

theorem verdict_aboutOrder (h : verdict answer (t :: rest) = .error e) (he : e.aboutOrder = true)
    (rest' : List Token) :
    ∃ e', verdict answer (t :: rest') = .error e' ∧ e'.aboutOrder = true := by
  match answer with
  | .error e' =>
    cases h
    exact ⟨_, rfl, he⟩
  | .ok none | .ok (some _) => exact ⟨_, rfl, rfl⟩

theorem Reads.blocked (h : Reads (some maxDepth) .same .sum 0 (taken ++ rest) answer rest trace)
    (hv : verdict answer rest = .error e) (he : e.aboutOrder = true) : Blocked taken rest := by
  match rest with
  | [] =>
    intro hs
    obtain ⟨d, rfl⟩ := sentence_iff.mp hs
    rw [List.append_nil] at h
    exact d.not_aboutOrder (h.ofTokens_eq.trans hv) he
  | t :: rest =>
    intro hviable
    obtain ⟨d, more, hd⟩ := viable_iff.mp hviable
    obtain ⟨taken', ht, hany⟩ := h.lookahead
    obtain rfl := List.append_cancel_right ht
    obtain ⟨e', hv', he'⟩ := verdict_aboutOrder hv he more
    have hread := (hany (t :: more) rfl).ofTokens_eq.trans hv'
    rw [show taken ++ t :: more = d.tokens by simpa using hd.symm] at hread
    exact d.not_aboutOrder hread he'

theorem Reads.verdict_located (h : Reads limit .same .sum 0 tokens answer rest trace)
    (hv : verdict answer rest = .error e) (he : e.aboutOrder = true) :
    ∃ p, tokens = p ++ rest ∧ Begun .sum p ∧ Fits p rest e := by
  match answer, rest with
  | .error e', rest =>
    cases hv
    obtain ⟨p, ht, hb, hf⟩ := h.error_located he
    exact ⟨p, ht, hb, hf [] nofun⟩
  | .ok none, rest =>
    cases hv
    exact ⟨[], h.rest_eq_of_none.symm, begun_nil _, .noExpression rfl⟩
  | .ok (some a), [] => cases hv
  | .ok (some a), t :: rest =>
    cases hv
    obtain ⟨d, rfl, -⟩ := h.derivation
    exact ⟨d.tokens, rfl, d.begun, .trailing ⟨d, rfl⟩ nofun⟩

/-- An error about the order of the tokens stands at the first token that no
expression has there, and is the one that fits what is in front of it. -/
theorem ofTokens_error_located (h : Expr.ofTokens tokens = .error e) (he : e.aboutOrder = true) :
    ∃ p rest, tokens = p ++ rest ∧ Viable (p.map Token.kind) ∧ Blocked p rest ∧
      Fits p rest e ∧ ∀ e', Fits p rest e' → e' = e := by
  obtain ⟨answer, rest, trace, hr⟩ := answers (some maxDepth) .same .sum 0 tokens
  rw [hr.ofTokens_eq] at h
  obtain ⟨p, rfl, hb, hf⟩ := hr.verdict_located h he
  exact ⟨p, rest, rfl, viable_iff.mpr hb, hr.blocked h he, hf,
    fun e' hf' => hf'.eq_cause.trans hf.eq_cause.symm⟩

theorem radical_located_at_second_number :
    let number (digit : String) : Token := ⟨.number, digit⟩
    let tokens := [number "3", ⟨.termOp, "*"⟩, ⟨.sqrt, "sqrt"⟩, ⟨.openParen, "("⟩, number "1",
      number "2", ⟨.closeParen, ")"⟩]
    Expr.ofTokens tokens = .error .unclosedRadical ∧
      ∃ p rest, tokens = p ++ rest ∧ Viable (p.map Token.kind) ∧ Blocked p rest ∧
        Fits p rest .unclosedRadical ∧ ∀ e', Fits p rest e' → e' = .unclosedRadical := by
  intro number tokens
  have h : Expr.ofTokens tokens = .error .unclosedRadical := by decide +kernel
  exact ⟨h, ofTokens_error_located h rfl⟩

end Grammar

end Abacus
