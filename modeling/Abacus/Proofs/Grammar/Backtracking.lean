import Abacus.Proofs.Grammar.Limit

/-!
# Reading the left operand once

`Backtracking` is the descent as the rules are written, `operand op right` or
else `operand`. It runs side by side with the descent that stays where it is: a
computation only sees the tokens ahead and the depth, not how far ahead tokens
are held, so the second reading of an operand ends beside the first.
-/

namespace Abacus.Grammar

namespace Backtracking

/-- `operand op right`, or else `operand` read again from the start. -/
def chain (limit : Option Nat) (operand : Production) (kind : Token.Kind)
    (right : Production) : Production := do
  let start ← mark
  let some a ← operand | do restore start; return none
  let some op ← accept kind | do fallBack ⟨kind, a⟩; restore start; operand
  let some b ← nested limit right | throw (.missingOperand op.lexeme)
  let some operator := Operator.ofSymbol? op.lexeme | throw (.unknownOperator op.lexeme)
  return some (.binary operator a b)

section Levels

variable (limit : Option Nat) (inner : Level → Production)

def power : Production := chain limit (group limit inner) .powerOp (inner .group)

def term : Production := chain limit (power limit inner) .termOp (inner .term)

def sum : Production := chain limit (term limit inner) .sumOp (inner .sum)

end Levels

def production (limit : Option Nat) : Nat → Level → Production
  | 0, _ => return none
  | room + 1, .group => group limit (production limit room)
  | room + 1, .power => power limit (production limit room)
  | room + 1, .term => term limit (production limit room)
  | room + 1, .sum => sum limit (production limit room)

def sentence (limit : Option Nat) (room : Nat) : ParseM Expr := do
  let some tree ← production limit room .sum
    | throw (.noExpression (" ".intercalate (← leftover)))
  match ← leftover with
  | [] => return tree
  | lexemes => throw (.trailing lexemes)

def run (limit : Option Nat) (tokens : List Token) : Except SyntaxError Expr × State :=
  (sentence limit (tokens.length + 1)).run (.ofTokens tokens)

end Backtracking

-- ---------------------------------------------------------------------------
-- Side by side
-- ---------------------------------------------------------------------------

/-- Both states stand before these of all tokens, at this depth. -/
structure Beside (all rest : List Token) (depth : Nat) (s s' : State) : Prop where
  left : Ahead all rest s.tokens
  right : Ahead all rest s'.tokens
  depth_left : s.depth = depth
  depth_right : s'.depth = depth

theorem beside_ofTokens (tokens : List Token) :
    Beside tokens tokens 0 (.ofTokens tokens) (.ofTokens tokens) :=
  ⟨⟨[], rfl, Cursor.at_ofList tokens⟩, ⟨[], rfl, Cursor.at_ofList tokens⟩, rfl, rfl⟩

theorem Beside.after (h : Beside all tokens depth s s') (hc : Ahead all rest c)
    (hc' : Ahead all rest c') (trace trace' : Trace) :
    Beside all rest depth (s.after c trace) (s'.after c' trace') :=
  ⟨hc, hc', h.depth_left, h.depth_right⟩

/-- Begun side by side, the computations answer alike and end side by side,
not before where they began. -/
def Agrees (m m' : ParseM α) : Prop :=
  ∀ all rest depth s s', Beside all rest depth s s' →
    ∃ answer t t' rest', rest' <:+ rest ∧ m.run s = (answer, t) ∧ m'.run s' = (answer, t') ∧
      Beside all rest' depth t t'

theorem Ahead.unique (h : Ahead all rest c) (h' : Ahead all rest' c) : rest = rest' := by
  obtain ⟨_, _, hat⟩ := h
  obtain ⟨_, _, hat'⟩ := h'
  exact hat.unread_eq.symm.trans hat'.unread_eq

theorem Ahead.back (hc : Ahead all tokens c) (hd : Ahead all rest d) (h : rest <:+ tokens) :
    Ahead all tokens (d.restore c.mark).2 := by
  obtain ⟨taken, rfl⟩ := h
  obtain ⟨read, rfl, hc⟩ := hc
  obtain ⟨read', heq, hd⟩ := hd
  obtain rfl : read ++ taken = read' := List.append_cancel_right (by simpa using heq)
  obtain ⟨e, he, hat⟩ := hd.restore
  have hmark : c.mark = ([] : List Token).length + read.length := hc.pos
  exact ⟨read, rfl, by rwa [hmark, he]⟩

namespace Agrees

theorem bind {m m' : ParseM α} {f f' : α → ParseM β} (hm : Agrees m m')
    (hf : ∀ a, Agrees (f a) (f' a)) : Agrees (m >>= f) (m' >>= f') := by
  intro all rest depth s s' h
  obtain ⟨answer, t, t', middle, hle, hm, hm', h⟩ := hm all rest depth s s' h
  cases answer with
  | error e =>
    exact ⟨.error e, t, t', middle, hle, by simp [run_bind, hm], by simp [run_bind, hm'], h⟩
  | ok a =>
    obtain ⟨answer, u, u', rest, hle', hf, hf', h⟩ := hf a all middle depth t t' h
    exact ⟨answer, u, u', rest, hle'.trans hle, by simp [run_bind, hm, hf],
      by simp [run_bind, hm', hf'], h⟩

theorem of_yields {m : ParseM α} (h : ∀ depth tokens, ∃ answer rest trace, rest <:+ tokens ∧
    Yields m depth tokens answer rest trace) : Agrees m m := by
  intro all tokens depth s s' hb
  obtain ⟨answer, rest, trace, hle, hm⟩ := h depth tokens
  obtain ⟨c, hc, hat⟩ := hm all s hb.left hb.depth_left
  obtain ⟨c', hc', hat'⟩ := hm all s' hb.right hb.depth_right
  exact ⟨answer, _, _, rest, hle, hc, hc', hb.after hat hat' trace trace⟩

theorem ret (a : α) : Agrees (pure a) (pure a) :=
  of_yields fun _ tokens => ⟨_, tokens, _, List.suffix_refl _, .ret a⟩

theorem throw (e : SyntaxError) : Agrees (α := α) (MonadExcept.throw e) (MonadExcept.throw e) :=
  of_yields fun _ tokens => ⟨_, tokens, _, List.suffix_refl _, .throw e⟩

theorem accept (kind : Token.Kind) : Agrees (Grammar.accept kind) (Grammar.accept kind) := by
  refine of_yields fun _ tokens => ?_
  by_cases hs : Stops (isKind kind) tokens
  · exact ⟨_, tokens, _, List.suffix_refl _, .accept_miss hs⟩
  · obtain ⟨t, rest, rfl, ht⟩ := exists_kind_of_not_stops hs
    exact ⟨_, rest, _, List.suffix_cons .., .accept_hit ht⟩

theorem expect (kind : Token.Kind) (e : SyntaxError) :
    Agrees (Grammar.expect kind e) (Grammar.expect kind e) := by
  refine .bind (.accept kind) fun token => ?_
  cases token with
  | none => exact .throw e
  | some _ => exact .ret ()

theorem leftover : Agrees Grammar.leftover Grammar.leftover :=
  of_yields fun _ _ => ⟨_, [], _, List.nil_suffix, .leftover⟩

theorem checkDepth (limit : Option Nat) :
    Agrees (Grammar.checkDepth limit) (Grammar.checkDepth limit) := by
  refine of_yields fun depth tokens => ?_
  rcases within_or limit depth with hd | ⟨n, rfl, hn⟩
  · exact ⟨_, tokens, _, List.suffix_refl _, .checkDepth hd⟩
  · exact ⟨_, tokens, _, List.suffix_refl _, .checkDepth_full hn⟩

theorem deeper {body body' : ParseM α} (h : Agrees body body') :
    Agrees (Grammar.deeper body) (Grammar.deeper body') := by
  intro all tokens depth s s' hb
  obtain ⟨answer, t, t', rest, hle, hm, hm', ht⟩ := h all tokens (depth + 1)
    { s with depth := s.depth + 1, deepest := max s.deepest (s.depth + 1) }
    { s' with depth := s'.depth + 1, deepest := max s'.deepest (s'.depth + 1) }
    ⟨hb.left, hb.right, congrArg (· + 1) hb.depth_left, congrArg (· + 1) hb.depth_right⟩
  refine ⟨answer, { t with depth := t.depth - 1 }, { t' with depth := t'.depth - 1 }, rest, hle,
    ?_, ?_, ht.left, ht.right, congrArg (· - 1) ht.depth_left, congrArg (· - 1) ht.depth_right⟩
  · rw [run_deeper, hm]
  · rw [run_deeper, hm']

theorem nested {body body' : ParseM α} (limit : Option Nat) (h : Agrees body body') :
    Agrees (Grammar.nested limit body) (Grammar.nested limit body') :=
  .bind (.checkDepth limit) fun _ => .deeper h

theorem bracketAfter {body body' : Production} (b : Bracket) (h : Agrees body body') :
    Agrees (Grammar.bracketAfter b body) (Grammar.bracketAfter b body') := by
  refine .bind h fun operand => ?_
  cases operand with
  | none => exact .throw _
  | some a => exact .bind (.expect _ _) fun _ => .ret _

theorem group {inner inner' : Level → Production} (limit : Option Nat)
    (h : ∀ level, Agrees (inner level) (inner' level)) :
    Agrees (Grammar.group limit inner) (Grammar.group limit inner') := by
  have hbody (b : Bracket) := bracketAfter b (.nested limit (h .sum))
  refine .bind (.accept .sqrt) fun radical => ?_
  cases radical with
  | some _ => exact .bind (.expect _ _) fun _ => hbody .sqrt
  | none =>
    refine .bind (.accept .openParen) fun opening => ?_
    cases opening with
    | some _ => exact hbody .paren
    | none =>
      refine .bind (.accept .number) fun number => ?_
      cases number with
      | none => exact .ret none
      | some token =>
        dsimp only
        cases Numeral.read? token.lexeme with
        | none => exact .throw _
        | some v => exact .ret _

end Agrees

def operatorAfter (limit : Option Nat) (right : Production) (a : Expr) (op : Token) :
    Production := do
  let some b ← nested limit right | throw (.missingOperand op.lexeme)
  let some operator := Operator.ofSymbol? op.lexeme | throw (.unknownOperator op.lexeme)
  return some (.binary operator a b)

theorem run_chainAfter_operator (h : (accept kind).run s = (.ok (some op), t)) :
    (chainAfter limit kind right a).run s = (operatorAfter limit right a op).run t := by
  rw [chainAfter, run_bind, h]
  rfl

theorem Backtracking.run_chain (s : State) :
    (Backtracking.chain limit operand kind right).run s = match operand.run s with
      | (.error e, t) => (.error e, t)
      | (.ok none, t) => (.ok none, { t with tokens := (t.tokens.restore s.tokens.mark).2 })
      | (.ok (some a), t) => match (accept kind).run t with
        | (.error e, u) => (.error e, u)
        | (.ok none, u) => operand.run { u with
            tokens := (u.tokens.restore s.tokens.mark).2
            fallbacks := u.fallbacks.push ⟨kind, a⟩ }
        | (.ok (some op), u) => (operatorAfter limit right a op).run u := by
  rw [Backtracking.chain, run_bind, run_mark]
  simp only [run_bind]
  rcases operand.run s with ⟨_ | _ | a, t⟩
  · rfl
  · rfl
  · simp only [run_bind]
    rcases (accept kind).run t with ⟨_ | _ | _, u⟩ <;> rfl

namespace Agrees

theorem operatorAfter {right right' : Production} (limit : Option Nat) (a : Expr) (op : Token)
    (h : Agrees right right') :
    Agrees (Grammar.operatorAfter limit right a op) (Grammar.operatorAfter limit right' a op) := by
  refine .bind (.nested limit h) fun operand => ?_
  cases operand with
  | none => exact .throw _
  | some b =>
    dsimp only
    cases Operator.ofSymbol? op.lexeme with
    | none => exact .throw _
    | some operator => exact .ret _

variable {operand operand' right right' : Production}

theorem chain_again (ho : Agrees operand operand') (h : Beside all tokens depth s s')
    (hm : operand.run s = (.ok (some a), t)) (ht : Beside all rest depth t t')
    (hle : rest <:+ tokens) (fallback : Fallback) :
    ∃ u', operand'.run { t' with
        tokens := (t'.tokens.restore s'.tokens.mark).2
        fallbacks := t'.fallbacks.push fallback } = (.ok (some a), u') ∧
      Beside all rest depth t u' := by
  -- the second reading starts beside the first and ends where the first ended
  have hback : Beside all tokens depth s { t' with
      tokens := (t'.tokens.restore s'.tokens.mark).2
      fallbacks := t'.fallbacks.push fallback } :=
    ⟨h.left, h.right.back ht.right hle, h.depth_left, ht.depth_right⟩
  obtain ⟨answer, u, u', rest', -, hu, hu', hb⟩ := ho all tokens depth s _ hback
  obtain ⟨rfl, rfl⟩ := Prod.mk.inj (hm.symm.trans hu)
  obtain rfl := ht.left.unique hb.left
  exact ⟨u', hu', hb⟩

theorem chain (limit : Option Nat) (kind : Token.Kind) (ho : Agrees operand operand')
    (hr : Agrees right right') :
    Agrees (Grammar.chain limit operand kind right)
      (Backtracking.chain limit operand' kind right') := by
  intro all tokens depth s s' h
  obtain ⟨answer, t, t', middle, hle, hm, hm', ht⟩ := ho all tokens depth s s' h
  match answer with
  | .error e =>
    refine ⟨.error e, t, t', middle, hle, ?_, ?_, ht⟩
    · rw [Grammar.run_chain, hm]
    · rw [Backtracking.run_chain, hm']
  | .ok none =>
    refine ⟨.ok none, { t with tokens := (t.tokens.restore s.tokens.mark).2 },
      { t' with tokens := (t'.tokens.restore s'.tokens.mark).2 }, tokens, List.suffix_refl _, ?_, ?_,
      h.left.back ht.left hle, h.right.back ht.right hle, ht.depth_left, ht.depth_right⟩
    · rw [Grammar.run_chain, hm]
    · rw [Backtracking.run_chain, hm']
  | .ok (some a) =>
    -- Without an operator one chain has its answer and the other goes back;
    -- with one both go on alike.
    by_cases hs : Stops (isKind kind) middle
    · obtain ⟨c, hc, hat⟩ := Yields.after_noOperator hs all t ht.left ht.depth_left
      obtain ⟨c', hc', hat'⟩ := Yields.accept_miss hs all t' ht.right ht.depth_right
      have ht' : Beside all middle depth t (t'.after c' .empty) :=
        ⟨ht.left, hat', ht.depth_left, ht.depth_right⟩
      obtain ⟨u', hu', hb⟩ := ho.chain_again h hm ht' hle ⟨kind, a⟩
      refine ⟨.ok (some a), t.after c (.fellBack ⟨kind, a⟩), u', middle, hle, ?_, ?_, hat, hb.right,
        ht.depth_left, hb.depth_right⟩
      · rw [Grammar.run_chain, hm]
        exact hc
      · simpa only [Backtracking.run_chain, hm', hc'] using hu'
    · obtain ⟨op, middle, rfl, hop⟩ := exists_kind_of_not_stops hs
      obtain ⟨c, hc, hat⟩ := Yields.accept_hit hop all t ht.left ht.depth_left
      obtain ⟨c', hc', hat'⟩ := Yields.accept_hit hop all t' ht.right ht.depth_right
      obtain ⟨answer, u, u', rest, hle', hu, hu', hb⟩ := hr.operatorAfter limit a op all middle depth
        _ _ (ht.after hat hat' .empty .empty)
      refine ⟨answer, u, u', rest, hle'.trans ((List.suffix_cons ..).trans hle), ?_, ?_, hb⟩
      · rw [Grammar.run_chain, hm]
        exact (run_chainAfter_operator hc).trans hu
      · simpa only [Backtracking.run_chain, hm', hc'] using hu'

end Agrees

-- ---------------------------------------------------------------------------
-- The whole descent
-- ---------------------------------------------------------------------------

theorem production_agrees (limit : Option Nat) (room : Nat) (level : Level) :
    Agrees (production limit room level) (Backtracking.production limit room level) := by
  induction room generalizing level with
  | zero => exact .ret none
  | succ room ih =>
    have hgroup := Agrees.group limit ih
    have hpower := hgroup.chain limit .powerOp (ih .group)
    have hterm := hpower.chain limit .termOp (ih .term)
    have hsum := hterm.chain limit .sumOp (ih .sum)
    cases level with
    | group => exact hgroup
    | power => exact hpower
    | term => exact hterm
    | sum => exact hsum

theorem sentence_agrees (limit : Option Nat) (room : Nat) :
    Agrees (sentence limit room) (Backtracking.sentence limit room) := by
  refine .bind (production_agrees limit room .sum) fun tree => ?_
  cases tree with
  | none => exact .bind .leftover fun _ => .throw _
  | some tree =>
    refine .bind .leftover fun lexemes => ?_
    cases lexemes with
    | nil => exact .ret tree
    | cons _ _ => exact .throw _

/-- Reading every operand that no operator follows a second time changes no
tree and no error. That descent too ends on every list: any room beyond one
more than its length changes nothing. -/
theorem ofTokens_eq_backtracking (tokens : List Token) :
    Expr.ofTokens tokens = (Backtracking.run (some maxDepth) tokens).1 ∧
    ∀ spare, ((Backtracking.sentence (some maxDepth) (tokens.length + 1 + spare)).run
      (.ofTokens tokens)).1 = (Backtracking.run (some maxDepth) tokens).1 := by
  obtain ⟨answer, rest, trace, h⟩ := answers (some maxDepth) .same .sum 0 tokens
  have hagree (room : Nat) : ((sentence (some maxDepth) room).run (.ofTokens tokens)).1 =
      ((Backtracking.sentence (some maxDepth) room).run (.ofTokens tokens)).1 := by
    obtain ⟨_, _, _, _, -, hs, hs', -⟩ :=
      sentence_agrees _ room _ _ _ _ _ (beside_ofTokens tokens)
    rw [hs, hs']
  refine ⟨hagree _, fun spare => ?_⟩
  rw [← hagree, (h.run_deepest (by omega)).1]
  exact h.ofTokens_eq.symm.trans (hagree _)

example : let one : List Token := [⟨.number, "1"⟩]
    (run none one).2.fallbacks.size = 3 ∧ (Backtracking.run none one).2.fallbacks.size = 7 := by
  decide +kernel

end Abacus.Grammar
