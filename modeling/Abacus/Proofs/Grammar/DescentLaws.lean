import Abacus.Proofs.Grammar.Reads

/-!
# The descent follows the rules

`Yields` describes a computation from every state that stands before given tokens
at a given depth. Each primitive and each production has a law for it, and
`Reads.yields` puts them together. So the depth is always restored and the room
never runs out.
-/

namespace Abacus.Grammar

theorem run_bind (m : ParseM α) (f : α → ParseM β) (s : State) :
    (m >>= f).run s = match m.run s with
      | (.ok a, s) => (f a).run s
      | (.error e, s) => (.error e, s) := by
  unfold ExceptT.run
  simp only [bind, ExceptT.bind, ExceptT.mk, StateT.bind, ExceptT.bindCont]
  cases m s with
  | mk result next => cases result <;> rfl

/-- A cursor over all tokens with these still ahead, its anchor at the front. -/
def Ahead (all rest : List Token) (c : Cursor Token) : Prop :=
  ∃ read, all = read ++ rest ∧ c.At [] read rest

theorem Ahead.acceptIf_hit (h : Ahead all (t :: rest) c) (hp : p t = true) :
    ∃ d, c.acceptIf p = (some t, d) ∧ Ahead all rest d := by
  obtain ⟨read, rfl, hat⟩ := h
  obtain ⟨d, hd, hat⟩ := hat.acceptIf_hit hp
  exact ⟨d, hd, read ++ [t], by simp, hat⟩

theorem Ahead.acceptIf_miss (h : Ahead all rest c) (hp : Stops p rest) :
    ∃ d, c.acceptIf p = (none, d) ∧ Ahead all rest d := by
  obtain ⟨read, rfl, hat⟩ := h
  obtain ⟨d, hd, hat⟩ := hat.acceptIf_miss hp
  exact ⟨d, hd, read, rfl, hat⟩

theorem Ahead.restore (h : Ahead all rest c) (h' : Ahead all rest d) :
    (d.restore c.mark).2 = d := by
  obtain ⟨read, rfl, hat⟩ := h
  obtain ⟨read', heq, hat'⟩ := h'
  obtain rfl := List.append_cancel_right heq
  have hpos : c.mark = d.pos := hat.pos.trans hat'.pos.symm
  rw [hpos]
  unfold Cursor.restore
  split <;> rfl

def State.after (s : State) (tokens : Cursor Token) (trace : Trace) : State :=
  { s with
    tokens, deepest := max s.deepest trace.peak
    fallbacks := s.fallbacks ++ trace.fallbacks.toArray }

/-- Before these tokens at this depth, the computation has this answer and effect. -/
def Yields (m : ParseM α) (depth : Nat) (tokens : List Token) (answer : Except SyntaxError α)
    (rest : List Token) (trace : Trace) : Prop :=
  ∀ all s, Ahead all tokens s.tokens → s.depth = depth →
    ∃ c, m.run s = (answer, s.after c trace) ∧ Ahead all rest c

@[simp] theorem State.after_after (s : State) (c d : Cursor Token) (a b : Trace) :
    (s.after c a).after d b = s.after d (a ++ b) := by
  simp [State.after, Trace.append_def, Nat.max_assoc]

theorem State.after_empty (s : State) (c : Cursor Token) :
    s.after c .empty = { s with tokens := c } := by
  simp [State.after, Trace.empty]

theorem run_get (s : State) : (get : ParseM State).run s = (.ok s, s) := rfl

theorem run_deeper (body : ParseM α) (s : State) :
    (deeper body).run s =
      match body.run { s with depth := s.depth + 1, deepest := max s.deepest (s.depth + 1) } with
      | (answer, s) => (answer, { s with depth := s.depth - 1 }) := rfl

theorem run_accept (kind : Token.Kind) (s : State) :
    (accept kind).run s = match s.tokens.acceptIf (isKind kind) with
      | (token, tokens) => (.ok token, { s with tokens }) := rfl

namespace Yields

theorem bind (hm : Yields m depth tokens (.ok a) middle trace)
    (hf : Yields (f a) depth middle answer rest trace') :
    Yields (m >>= f) depth tokens answer rest (trace ++ trace') := by
  intro all s hs hd
  obtain ⟨c, hm, hc⟩ := hm all s hs hd
  obtain ⟨d, hf, hc⟩ := hf all (s.after c trace) hc hd
  exact ⟨d, by simp [run_bind, hm, hf], hc⟩

theorem bind_left (hm : Yields m depth tokens (.ok a) middle .empty)
    (hf : Yields (f a) depth middle answer rest trace) :
    Yields (m >>= f) depth tokens answer rest trace := by
  simpa using hm.bind hf

theorem bind_right (hm : Yields m depth tokens (.ok a) middle trace)
    (hf : Yields (f a) depth middle answer rest .empty) :
    Yields (m >>= f) depth tokens answer rest trace := by
  simpa using hm.bind hf

theorem bind_error (hm : Yields m depth tokens (.error e) rest trace) :
    Yields (m >>= f) depth tokens (.error e) rest trace := by
  intro all s hs hd
  obtain ⟨c, hm, hc⟩ := hm all s hs hd
  exact ⟨c, by simp [run_bind, hm], hc⟩

theorem ret (a : α) : Yields (pure a) depth tokens (.ok a) tokens .empty := by
  intro all s hs hd
  exact ⟨s.tokens, by rw [State.after_empty]; rfl, hs⟩

theorem throw (e : SyntaxError) :
    Yields (MonadExcept.throw e : ParseM α) depth tokens (.error e) tokens .empty := by
  intro all s hs hd
  exact ⟨s.tokens, by rw [State.after_empty]; rfl, hs⟩

theorem accept_hit (ht : t.kind = kind) :
    Yields (accept kind) depth (t :: rest) (.ok (some t)) rest .empty := by
  intro all s hs hd
  obtain ⟨c, hacc, hc⟩ := hs.acceptIf_hit (p := isKind kind) (by simpa using ht)
  exact ⟨c, by rw [s.after_empty, run_accept, hacc], hc⟩

theorem accept_miss (ht : Stops (isKind kind) tokens) :
    Yields (accept kind) depth tokens (.ok none) tokens .empty := by
  intro all s hs hd
  obtain ⟨c, hacc, hc⟩ := hs.acceptIf_miss ht
  exact ⟨c, by rw [s.after_empty, run_accept, hacc], hc⟩

theorem expect_hit (ht : t.kind = kind) :
    Yields (expect kind e) depth (t :: rest) (.ok ()) rest .empty := by
  exact .bind_left (accept_hit ht) (.ret ())

theorem expect_miss (ht : Stops (isKind kind) tokens) :
    Yields (expect kind e) depth tokens (.error e) tokens .empty := by
  exact .bind_left (accept_miss ht) (.throw e)

theorem fallBack (fallback : Fallback) :
    Yields (Grammar.fallBack fallback) depth tokens (.ok ()) tokens (.fellBack fallback) := by
  intro all s hs hd
  refine ⟨s.tokens, ?_, hs⟩
  simp only [State.after, Trace.fellBack, Nat.max_zero, ← Array.push_eq_append]
  rfl

theorem checkDepth_full (hn : n ≤ depth) :
    Yields (checkDepth (some n)) depth tokens (.error (.tooDeep n)) tokens .empty := by
  rintro all s hs rfl
  refine ⟨s.tokens, ?_, hs⟩
  rw [s.after_empty, checkDepth, run_bind]
  simp only [run_get, if_pos hn]
  rfl

theorem checkDepth (hd : Within limit (depth + 1)) :
    Yields (Grammar.checkDepth limit) depth tokens (.ok ()) tokens .empty := by
  cases limit with
  | none => exact .ret ()
  | some n =>
    rintro all s hs rfl
    refine ⟨s.tokens, ?_, hs⟩
    rw [s.after_empty, Grammar.checkDepth, run_bind]
    simp only [run_get, if_neg (Nat.not_le.mpr (hd n rfl))]
    rfl

theorem deeper (h : Yields body (depth + 1) tokens answer rest trace) :
    Yields (Grammar.deeper body) depth tokens answer rest (.enter (depth + 1) ++ trace) := by
  rintro all s hs rfl
  obtain ⟨c, hbody, hc⟩ := h all
    { s with depth := s.depth + 1, deepest := max s.deepest (s.depth + 1) } hs rfl
  refine ⟨c, ?_, hc⟩
  rw [run_deeper, hbody]
  simp [State.after, Trace.enter, Trace.append_def, Nat.max_assoc]

theorem tooDeep (hn : n ≤ depth) :
    Yields (nested (some n) body) depth tokens (.error (.tooDeep n)) tokens .empty :=
  (checkDepth_full hn).bind_error

theorem nested (hd : Within limit (depth + 1))
    (h : Yields body (depth + 1) tokens answer rest trace) :
    Yields (Grammar.nested limit body) depth tokens answer rest (.enter (depth + 1) ++ trace) := by
  exact .bind_left (checkDepth hd) (.deeper h)

end Yields

-- ---------------------------------------------------------------------------
-- Chains
-- ---------------------------------------------------------------------------

def chainAfter (limit : Option Nat) (kind : Token.Kind) (right : Production) (a : Expr) :
    Production := do
  let some op ← accept kind | do fallBack ⟨kind, a⟩; return some a
  let some b ← nested limit right | throw (.missingOperand op.lexeme)
  let some operator := Operator.ofSymbol? op.lexeme | throw (.unknownOperator op.lexeme)
  return some (.binary operator a b)

theorem run_mark (s : State) : mark.run s = (.ok s.tokens.mark, s) := rfl

theorem run_chain (s : State) :
    (chain limit operand kind right).run s = match operand.run s with
      | (.error e, s') => (.error e, s')
      | (.ok none, s') => (.ok none, { s' with tokens := (s'.tokens.restore s.tokens.mark).2 })
      | (.ok (some a), s') => (chainAfter limit kind right a).run s' := by
  rw [chain, run_bind, run_mark]
  simp only [run_bind]
  rcases operand.run s with ⟨_ | _ | _, s'⟩ <;> rfl

namespace Yields

theorem chain_absent (h : Yields operand depth tokens (.ok none) tokens trace) :
    Yields (chain limit operand kind right) depth tokens (.ok none) tokens trace := by
  intro all s hs hd
  obtain ⟨c, hm, hc⟩ := h all s hs hd
  refine ⟨c, ?_, hc⟩
  simp [run_chain, hm, State.after, hs.restore hc]

theorem chain_error (h : Yields operand depth tokens (.error e) rest trace) :
    Yields (chain limit operand kind right) depth tokens (.error e) rest trace := by
  intro all s hs hd
  obtain ⟨c, hm, hc⟩ := h all s hs hd
  exact ⟨c, by rw [run_chain, hm], hc⟩

theorem chain_operand (h : Yields operand depth tokens (.ok (some a)) middle trace)
    (h' : Yields (chainAfter limit kind right a) depth middle answer rest trace') :
    Yields (chain limit operand kind right) depth tokens answer rest (trace ++ trace') := by
  intro all s hs hd
  obtain ⟨c, hm, hc⟩ := h all s hs hd
  obtain ⟨d, hm', hc⟩ := h' all (s.after c trace) hc hd
  exact ⟨d, by rw [run_chain, hm, ← State.after_after]; exact hm', hc⟩

theorem after_noOperator (hs : Stops (isKind kind) tokens) :
    Yields (chainAfter limit kind right a) depth tokens (.ok (some a)) tokens
      (.fellBack ⟨kind, a⟩) := by
  refine .bind_left (accept_miss hs) ?_
  exact .bind_right (fallBack _) (.ret _)

theorem after_rightFails (hop : op.kind = kind)
    (h : Yields (Grammar.nested limit right) depth tokens (.error e) rest trace) :
    Yields (chainAfter limit kind right a) depth (op :: tokens) (.error e) rest trace := by
  refine .bind_left (accept_hit hop) ?_
  exact .bind_error h

theorem after_noRight (hop : op.kind = kind)
    (h : Yields (Grammar.nested limit right) depth tokens (.ok none) rest trace) :
    Yields (chainAfter limit kind right a) depth (op :: tokens)
      (.error (.missingOperand op.lexeme)) rest trace := by
  refine .bind_left (accept_hit hop) ?_
  exact .bind_right h (.throw _)

theorem after_unknownOperator (hop : op.kind = kind)
    (h : Yields (Grammar.nested limit right) depth tokens (.ok (some b)) rest trace)
    (ho : Operator.ofSymbol? op.lexeme = none) :
    Yields (chainAfter limit kind right a) depth (op :: tokens)
      (.error (.unknownOperator op.lexeme)) rest trace := by
  refine .bind_left (accept_hit hop) (.bind_right h ?_)
  simp only [ho]
  exact .throw _

theorem after_binary (hop : op.kind = kind)
    (h : Yields (Grammar.nested limit right) depth tokens (.ok (some b)) rest trace)
    (ho : Operator.ofSymbol? op.lexeme = some operator) :
    Yields (chainAfter limit kind right a) depth (op :: tokens)
      (.ok (some (.binary operator a b))) rest trace := by
  refine .bind_left (accept_hit hop) (.bind_right h ?_)
  simp only [ho]
  exact .ret _

end Yields

-- ---------------------------------------------------------------------------
-- Groups
-- ---------------------------------------------------------------------------

def bracketAfter (b : Bracket) (body : Production) : Production := do
  let some a ← body | throw b.emptyError
  expect .closeParen b.unclosedError
  return some (b.wrap a)

namespace Yields

variable {limit : Option Nat} {inner : Level → Production}

theorem group_bracket {b : Bracket} (ho : b.Opens opening)
    (h : Yields (bracketAfter b (Grammar.nested limit (inner .sum))) depth tokens answer rest trace) :
    Yields (group limit inner) depth (opening ++ tokens) answer rest trace := by
  cases ho with
  | paren ho =>
    refine .bind_left (accept_miss (by simp [Stops, isKind, ho])) (.bind_left (accept_hit ho) ?_)
    exact h
  | sqrt hr ho =>
    refine .bind_left (accept_hit hr) (.bind_left (expect_hit ho) ?_)
    exact h

theorem group_bareRadical (ht : t.kind = .sqrt) (hs : Stops (isKind .openParen) tokens) :
    Yields (group limit inner) depth (t :: tokens) (.error .missingRadicalParen) tokens .empty := by
  refine .bind_left (accept_hit ht) ?_
  exact .bind_error (expect_miss hs)

theorem group_absent (hs : Stops begins tokens) :
    Yields (group limit inner) depth tokens (.ok none) tokens .empty := by
  have hk : ∀ kind ∈ [Token.Kind.number, .openParen, .sqrt], Stops (isKind kind) tokens := by
    intro kind hk t ht
    have := hs t ht
    grind [begins, isKind]
  refine .bind_left (accept_miss (hk _ (by simp))) (.bind_left (accept_miss (hk _ (by simp))) ?_)
  exact .bind_left (accept_miss (hk _ (by simp))) (.ret none)

theorem group_number (ht : t.kind = .number) (hv : Numeral.read? t.lexeme = some v) :
    Yields (group limit inner) depth (t :: tokens) (.ok (some (.num v))) tokens .empty := by
  refine .bind_left (accept_miss (by simp [Stops, isKind, ht]))
    (.bind_left (accept_miss (by simp [Stops, isKind, ht])) (.bind_left (accept_hit ht) ?_))
  simp only [hv]
  exact .ret _

theorem group_outOfRange (ht : t.kind = .number) (hv : Numeral.read? t.lexeme = none) :
    Yields (group limit inner) depth (t :: tokens) (.error (.numberOutOfRange t.lexeme)) tokens
      .empty := by
  refine .bind_left (accept_miss (by simp [Stops, isKind, ht]))
    (.bind_left (accept_miss (by simp [Stops, isKind, ht])) (.bind_left (accept_hit ht) ?_))
  simp only [hv]
  exact .throw _

theorem body_fails (b : Bracket) (h : Yields body depth tokens (.error e) rest trace) :
    Yields (bracketAfter b body) depth tokens (.error e) rest trace :=
  .bind_error h

theorem body_absent (b : Bracket) (h : Yields body depth tokens (.ok none) rest trace) :
    Yields (bracketAfter b body) depth tokens (.error b.emptyError) rest trace :=
  .bind_right h (.throw _)

theorem body_unclosed (b : Bracket) (h : Yields body depth tokens (.ok (some a)) rest trace)
    (hs : Stops (isKind .closeParen) rest) :
    Yields (bracketAfter b body) depth tokens (.error b.unclosedError) rest trace :=
  .bind_right h (.bind_error (expect_miss hs))

theorem body_closed (b : Bracket) (h : Yields body depth tokens (.ok (some a)) (t :: rest) trace)
    (ht : t.kind = .closeParen) :
    Yields (bracketAfter b body) depth tokens (.ok (some (b.wrap a))) rest trace :=
  .bind_right h (.bind_left (expect_hit ht) (.ret _))

end Yields

-- ---------------------------------------------------------------------------
-- Productions
-- ---------------------------------------------------------------------------

def Call.body (limit : Option Nat) (room : Nat) : Call → Level → Production
  | .same, level => production limit room level
  | .below, level => nested limit (production limit room level)

theorem production_chain (rule : Chain level left kind right) (hroom : 0 < room) :
    production limit room level =
      chain limit (production limit room left) kind (production limit (room - 1) right) := by
  cases room with
  | zero => contradiction
  | succ room => cases rule <;> rfl

theorem production_group (hroom : 0 < room) :
    production limit room .group = group limit (production limit (room - 1)) := by
  cases room with
  | zero => contradiction
  | succ room => rfl

namespace Yields

theorem of_chain (rule : Chain level left kind right) (hroom : 0 < room)
    (h : Yields (chain limit (production limit room left) kind (production limit (room - 1) right))
      depth tokens answer rest trace) :
    Yields (Call.body limit room .same level) depth tokens answer rest trace := by
  rwa [Call.body, production_chain rule hroom]

theorem of_group (hroom : 0 < room)
    (h : Yields (group limit (production limit (room - 1))) depth tokens answer rest trace) :
    Yields (Call.body limit room .same .group) depth tokens answer rest trace := by
  rwa [Call.body, production_group hroom]

end Yields

theorem Reads.yields (h : Reads limit call level depth tokens answer rest trace)
    (hroom : tokens.length < room) :
    Yields (call.body limit room level) depth tokens answer rest trace := by
  have hpos : 0 < room := Nat.zero_lt_of_lt hroom
  induction h generalizing room with
  | tooDeep hlimit hle => subst hlimit; exact Yields.tooDeep hle
  | deeper hd _ ih => exact Yields.nested hd (ih hroom hpos)
  | operandFails rule hl ih => exact .of_chain rule hpos (.chain_error (ih hroom hpos))
  | noOperand rule hl ih => exact .of_chain rule hpos (.chain_absent (ih hroom hpos))
  | operand rule hl hs ih =>
    exact .of_chain rule hpos (.chain_operand (ih hroom hpos) (.after_noOperator hs))
  | rightFails rule hl hop hr ihl ihr =>
    have := hl.length_lt
    simp only [List.length_cons] at this
    exact .of_chain rule hpos
      (.chain_operand (ihl hroom hpos) (.after_rightFails hop (ihr (by omega) (by omega))))
  | noRight rule hl hop hr ihl ihr =>
    have := hl.length_lt
    simp only [List.length_cons] at this
    exact .of_chain rule hpos
      (.chain_operand (ihl hroom hpos) (.after_noRight hop (ihr (by omega) (by omega))))
  | unknownOperator rule hl hop hr ho ihl ihr =>
    have := hl.length_lt
    simp only [List.length_cons] at this
    exact .of_chain rule hpos
      (.chain_operand (ihl hroom hpos) (.after_unknownOperator hop (ihr (by omega) (by omega)) ho))
  | binary rule hl hop hr ho ihl ihr =>
    have := hl.length_lt
    simp only [List.length_cons] at this
    exact .of_chain rule hpos
      (.chain_operand (ihl hroom hpos) (.after_binary hop (ihr (by omega) (by omega)) ho))
  | noGroup hs => exact .of_group hpos (.group_absent hs)
  | number ht hv => exact .of_group hpos (.group_number ht hv)
  | outOfRange ht hv => exact .of_group hpos (.group_outOfRange ht hv)
  | bareRadical ht hs => exact .of_group hpos (.group_bareRadical ht hs)
  | bodyFails ho h ih =>
    have := ho.length_pos
    simp only [List.length_append] at hroom
    exact .of_group hpos (.group_bracket ho (.body_fails _ (ih (by omega) (by omega))))
  | noBody ho h ih =>
    have := ho.length_pos
    simp only [List.length_append] at hroom
    exact .of_group hpos (.group_bracket ho (.body_absent _ (ih (by omega) (by omega))))
  | unclosed ho h hs ih =>
    have := ho.length_pos
    simp only [List.length_append] at hroom
    exact .of_group hpos (.group_bracket ho (.body_unclosed _ (ih (by omega) (by omega)) hs))
  | bracket ho h hc ih =>
    have := ho.length_pos
    simp only [List.length_append] at hroom
    exact .of_group hpos (.group_bracket ho (.body_closed _ (ih (by omega) (by omega)) hc))

theorem run_leftover (s : State) :
    leftover.run s = match s.tokens.readAll with
      | (rest, tokens) => (.ok (rest.map Token.lexeme), { s with tokens }) := rfl

theorem Yields.leftover :
    Yields leftover depth tokens (.ok (tokens.map Token.lexeme)) [] .empty := by
  rintro all s ⟨read, rfl, hat⟩ hd
  obtain ⟨c, hc, hat⟩ := hat.readAll
  exact ⟨c, by rw [s.after_empty, run_leftover, hc], read ++ tokens, by simp, hat⟩

/-- What becomes of the answer for the whole list of tokens. -/
def verdict : Answer → List Token → Except SyntaxError Expr
  | .error e, _ => .error e
  | .ok none, rest => .error (.noExpression (" ".intercalate (rest.map Token.lexeme)))
  | .ok (some e), [] => .ok e
  | .ok (some _), rest => .error (.trailing (rest.map Token.lexeme))

theorem Reads.sentence (h : Reads limit .same .sum 0 tokens answer rest trace)
    (hroom : tokens.length < room) :
    ∃ rest', Yields (sentence limit room) 0 tokens (verdict answer rest) rest' trace := by
  have hsum := h.yields hroom
  match answer, rest with
  | .error e, rest => exact ⟨rest, .bind_error hsum⟩
  | .ok none, rest => exact ⟨[], .bind_right hsum (.bind_left .leftover (.throw _))⟩
  | .ok (some e), [] => exact ⟨[], .bind_right hsum (.bind_left .leftover (.ret _))⟩
  | .ok (some e), t :: rest => exact ⟨[], .bind_right hsum (.bind_left .leftover (.throw _))⟩

theorem Reads.run_sentence (h : Reads limit .same .sum 0 tokens answer rest trace)
    (hroom : tokens.length < room) :
    ∃ c, (Grammar.sentence limit room).run (.ofTokens tokens) =
      (verdict answer rest, (State.ofTokens tokens).after c trace) := by
  obtain ⟨rest', hs⟩ := h.sentence hroom
  obtain ⟨c, hc, -⟩ := hs tokens (.ofTokens tokens) ⟨[], rfl, Cursor.at_ofList tokens⟩ rfl
  exact ⟨c, hc⟩

theorem Reads.run_eq (h : Reads limit .same .sum 0 tokens answer rest trace) :
    ∃ c, run limit tokens = (verdict answer rest, (State.ofTokens tokens).after c trace) :=
  h.run_sentence (Nat.lt_succ_self _)

theorem Reads.ofTokens_eq (h : Reads (some maxDepth) .same .sum 0 tokens answer rest trace) :
    Expr.ofTokens tokens = verdict answer rest := by
  obtain ⟨c, hc⟩ := h.run_eq
  rw [Expr.ofTokens, hc]

end Abacus.Grammar
