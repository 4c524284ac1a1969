import Abacus.Proofs.Cursor.Buffering
import Abacus.Proofs.Grammar.Backtracking

/-!
# States of the descent

`Reachable` is closed under all steps of the descent, in any order and with any
arguments, so it holds wherever a run can be. `Coincide` compares two computations
begun in one such state, with a law for each construct; where a token is accepted
the rest need only coincide on fewer tokens.
-/

namespace Abacus.Grammar

def State.entered (s : State) : State :=
  { s with depth := s.depth + 1, deepest := max s.deepest (s.depth + 1) }

def State.left (s : State) : State := { s with depth := s.depth - 1 }

/-- The states that steps of the descent over these tokens lead to. -/
inductive Reachable (tokens : List Token) : State → Prop
  | start : Reachable tokens (.ofTokens tokens)
  | accept (kind : Token.Kind) : Reachable tokens s →
      Reachable tokens ((Grammar.accept kind).run s).2
  | restore (mark : Nat) : Reachable tokens s → Reachable tokens ((Grammar.restore mark).run s).2
  | fallBack (fallback : Fallback) : Reachable tokens s →
      Reachable tokens ((Grammar.fallBack fallback).run s).2
  | leftover : Reachable tokens s → Reachable tokens (Grammar.leftover.run s).2
  | enter : Reachable tokens s → s.depth < maxDepth → Reachable tokens s.entered
  | leave : Reachable tokens s → Reachable tokens s.left

/-- The cursor stands somewhere in the tokens, its anchor at their front, and
the depth has never been beyond the limit. -/
structure Stands (tokens : List Token) (s : State) : Prop where
  ahead : Ahead tokens s.tokens.unread s.tokens
  depth_le : s.depth ≤ maxDepth
  deepest_le : s.deepest ≤ maxDepth

theorem Ahead.unread_eq (h : Ahead all rest c) : c.unread = rest := by
  obtain ⟨read, -, hat⟩ := h
  exact hat.unread_eq

theorem Ahead.stands (h : Ahead tokens rest s.tokens) (hdepth : s.depth ≤ maxDepth)
    (hdeepest : s.deepest ≤ maxDepth) : Stands tokens s :=
  ⟨h.unread_eq ▸ h, hdepth, hdeepest⟩

theorem Ahead.acceptIf (h : Ahead all rest c) (p : Token → Bool) :
    ∃ rest', rest' <:+ rest ∧ Ahead all rest' (c.acceptIf p).2 := by
  by_cases hs : Stops p rest
  · obtain ⟨d, hd, hat⟩ := h.acceptIf_miss hs
    exact ⟨rest, List.suffix_refl _, hd ▸ hat⟩
  · obtain ⟨t, rest, rfl, ht⟩ := exists_of_not_stops hs
    obtain ⟨d, hd, hat⟩ := h.acceptIf_hit ht
    exact ⟨rest, List.suffix_cons .., hd ▸ hat⟩

theorem Ahead.restore_any (h : Ahead all rest c) (mark : Nat) :
    ∃ rest', Ahead all rest' (c.restore mark).2 := by
  obtain ⟨read, rfl, hat⟩ := h
  by_cases hmark : mark ≤ c.held.size
  · obtain ⟨hrestore, hat⟩ := hat.restore_held (Nat.zero_le mark) hmark
    rw [hrestore]
    exact ⟨_, _, (List.take_append_drop mark _).symm, hat⟩
  · rw [Cursor.restore, if_neg fun h => hmark h.2]
    exact ⟨rest, read, rfl, hat⟩

theorem Ahead.readAll (h : Ahead all rest c) : Ahead all [] c.readAll.2 := by
  obtain ⟨read, rfl, hat⟩ := h
  obtain ⟨d, hd, hat⟩ := hat.readAll
  exact ⟨read ++ rest, by simp, hd ▸ hat⟩

theorem Reachable.stands (h : Reachable tokens s) : Stands tokens s := by
  induction h with
  | start => exact Ahead.stands ⟨[], rfl, Cursor.at_ofList tokens⟩ (Nat.zero_le _) (Nat.zero_le _)
  | accept kind _ ih =>
    obtain ⟨_, -, hat⟩ := ih.ahead.acceptIf (isKind kind)
    exact Ahead.stands hat ih.depth_le ih.deepest_le
  | restore mark _ ih =>
    obtain ⟨_, hat⟩ := ih.ahead.restore_any mark
    exact Ahead.stands hat ih.depth_le ih.deepest_le
  | fallBack _ _ ih => exact Ahead.stands ih.ahead ih.depth_le ih.deepest_le
  | leftover _ ih => exact Ahead.stands ih.ahead.readAll ih.depth_le ih.deepest_le
  | enter _ hlt ih => exact Ahead.stands ih.ahead hlt (Nat.max_le.mpr ⟨ih.deepest_le, hlt⟩)
  | leave _ ih =>
    exact Ahead.stands ih.ahead (Nat.le_trans (Nat.sub_le _ _) ih.depth_le) ih.deepest_le

-- ---------------------------------------------------------------------------
-- Runs that coincide
-- ---------------------------------------------------------------------------

def State.ahead (s : State) : Nat := s.tokens.unread.length

/-- With so many tokens ahead or fewer, the computations run alike, to a
reachable state with no more of them ahead. -/
def Coincide (tokens : List Token) (n : Nat) (m m' : ParseM α) : Prop :=
  ∀ s, Reachable tokens s → s.ahead ≤ n → ∃ answer t,
    m.run s = (answer, t) ∧ m'.run s = (answer, t) ∧ Reachable tokens t ∧ t.ahead ≤ s.ahead

theorem run_nested (n : Nat) (body : ParseM α) (s : State) :
    (nested (some n) body).run s =
      if n ≤ s.depth then (.error (.tooDeep n), s)
      else ((body.run s.entered).1, (body.run s.entered).2.left) := by
  rw [nested, run_bind, checkDepth, run_bind, run_get]
  by_cases hn : n ≤ s.depth
  · simp only [if_pos hn]
    rfl
  · simp only [if_neg hn]
    rfl

theorem Reachable.ahead_accept (h : Reachable tokens s) (kind : Token.Kind) :
    ((Grammar.accept kind).run s).2.ahead ≤ s.ahead := by
  obtain ⟨rest, hle, hat⟩ := h.stands.ahead.acceptIf (isKind kind)
  exact Nat.le_trans (Nat.le_of_eq (congrArg List.length hat.unread_eq)) hle.length_le

theorem Reachable.ahead_accept_lt (h : Reachable tokens s)
    (ht : (Grammar.accept kind).run s = (.ok (some t), s')) : s'.ahead < s.ahead := by
  by_cases hs : Stops (isKind kind) s.tokens.unread
  · obtain ⟨c, hmiss, -⟩ := Yields.accept_miss hs tokens s h.stands.ahead rfl
    cases ht.symm.trans hmiss
  · obtain ⟨op, rest, hrest, hop⟩ := exists_kind_of_not_stops hs
    have hat := h.stands.ahead
    rw [hrest] at hat
    obtain ⟨c, hhit, hc⟩ := Yields.accept_hit hop tokens s hat rfl
    cases ht.symm.trans hhit
    have hlen : c.unread.length < s.tokens.unread.length := by simp [hc.unread_eq, hrest]
    exact hlen

theorem Reachable.ahead_restore (h : Reachable tokens s) (h' : Reachable tokens s')
    (hle : s'.ahead ≤ s.ahead) :
    ((Grammar.restore s.tokens.mark).run s').2.ahead = s.ahead := by
  have hsuffix : s'.tokens.unread <:+ s.tokens.unread := by
    obtain ⟨read, hread, -⟩ := h.stands.ahead
    obtain ⟨read', hread', -⟩ := h'.stands.ahead
    exact List.suffix_of_suffix_length_le ⟨read', hread'.symm⟩ ⟨read, hread.symm⟩ hle
  have hback := h.stands.ahead.back h'.stands.ahead hsuffix
  exact congrArg List.length hback.unread_eq

namespace Coincide

variable {m m' : ParseM α} {operand operand' right right' : Production}

theorem congr_right (h : Coincide tokens n m m')
    (hm : ∀ s, Reachable tokens s → m''.run s = m'.run s) : Coincide tokens n m m'' := by
  intro s hs hn
  rw [hm s hs]
  exact h s hs hn

theorem congr_left (h : Coincide tokens n m m')
    (hm : ∀ s, Reachable tokens s → m''.run s = m.run s) : Coincide tokens n m'' m' := by
  intro s hs hn
  rw [hm s hs]
  exact h s hs hn

theorem bind {f f' : α → ParseM β} (hm : Coincide tokens n m m')
    (hf : ∀ a, Coincide tokens n (f a) (f' a)) : Coincide tokens n (m >>= f) (m' >>= f') := by
  intro s hs hn
  obtain ⟨answer, t, hm, hm', hreach, hle⟩ := hm s hs hn
  cases answer with
  | error e => exact ⟨.error e, t, by rw [run_bind, hm], by rw [run_bind, hm'], hreach, hle⟩
  | ok a =>
    obtain ⟨answer, u, hf, hf', hreach, hle'⟩ := hf a t hreach (Nat.le_trans hle hn)
    exact ⟨answer, u, by simp [run_bind, hm, hf], by simp [run_bind, hm', hf'], hreach,
      Nat.le_trans hle' hle⟩

theorem ret (a : α) : Coincide tokens n (pure a) (pure a) :=
  fun s hs _ => ⟨_, s, rfl, rfl, hs, Nat.le_refl _⟩

theorem throw (e : SyntaxError) :
    Coincide (α := α) tokens n (MonadExcept.throw e) (MonadExcept.throw e) :=
  fun s hs _ => ⟨_, s, rfl, rfl, hs, Nat.le_refl _⟩

theorem fallBack (fallback : Fallback) :
    Coincide tokens n (Grammar.fallBack fallback) (Grammar.fallBack fallback) :=
  fun _ hs _ => ⟨_, _, rfl, rfl, hs.fallBack fallback, Nat.le_refl _⟩

theorem accept (kind : Token.Kind) :
    Coincide tokens n (Grammar.accept kind) (Grammar.accept kind) :=
  fun _ hs _ => ⟨_, _, rfl, rfl, hs.accept kind, hs.ahead_accept kind⟩

theorem expect (kind : Token.Kind) (e : SyntaxError) :
    Coincide tokens n (Grammar.expect kind e) (Grammar.expect kind e) := by
  refine .bind (.accept kind) fun token => ?_
  cases token with
  | none => exact .throw e
  | some _ => exact .ret ()

theorem accepted {f f' : Option Token → ParseM α} (kind : Token.Kind)
    (hnone : Coincide tokens n (f none) (f' none))
    (hsome : ∀ k, k < n → ∀ t, Coincide tokens k (f (some t)) (f' (some t))) :
    Coincide tokens n (Grammar.accept kind >>= f) (Grammar.accept kind >>= f') := by
  intro s hs hn
  obtain ⟨token, t, hacc, hreach, hle⟩ : ∃ token t, (Grammar.accept kind).run s = (.ok token, t) ∧
      Reachable tokens t ∧ t.ahead ≤ s.ahead :=
    ⟨_, _, rfl, hs.accept kind, hs.ahead_accept kind⟩
  have hrest : ∃ answer u, (f token).run t = (answer, u) ∧ (f' token).run t = (answer, u) ∧
      Reachable tokens u ∧ u.ahead ≤ t.ahead := by
    cases token with
    | none => exact hnone t hreach (Nat.le_trans hle hn)
    | some op =>
      have hlt : t.ahead < s.ahead := hs.ahead_accept_lt hacc
      exact hsome t.ahead (Nat.lt_of_lt_of_le hlt hn) op t hreach (Nat.le_refl _)
  obtain ⟨answer, u, hf, hf', hreach, hle'⟩ := hrest
  exact ⟨answer, u, by simp [run_bind, hacc, hf], by simp [run_bind, hacc, hf'], hreach,
    Nat.le_trans hle' hle⟩

theorem nested (h : Coincide tokens n m m') :
    Coincide tokens n (Grammar.nested (some maxDepth) m) (Grammar.nested (some maxDepth) m') := by
  intro s hs hn
  rw [run_nested, run_nested]
  by_cases hfull : maxDepth ≤ s.depth
  · rw [if_pos hfull, if_pos hfull]
    exact ⟨_, s, rfl, rfl, hs, Nat.le_refl _⟩
  · rw [if_neg hfull, if_neg hfull]
    obtain ⟨answer, t, hm, hm', hreach, hle⟩ :=
      h s.entered (hs.enter (Nat.lt_of_not_le hfull)) hn
    exact ⟨answer, t.left, by rw [hm], by rw [hm'], hreach.leave, hle⟩

theorem chainAfter (kind : Token.Kind) (a : Expr)
    (hr : ∀ k, k < n → Coincide tokens k right right') :
    Coincide tokens n (Grammar.chainAfter (some maxDepth) kind right a)
      (Grammar.chainAfter (some maxDepth) kind right' a) := by
  refine .accepted kind ?_ fun k hk op => ?_
  · exact .bind (.fallBack _) fun _ => .ret _
  · refine .bind (.nested (hr k hk)) fun b => ?_
    cases b with
    | none => exact .throw _
    | some b =>
      dsimp only
      cases Operator.ofSymbol? op.lexeme with
      | none => exact .throw _
      | some operator => exact .ret _

theorem chain (kind : Token.Kind) (ho : Coincide tokens n operand operand')
    (hr : ∀ k, k < n → Coincide tokens k right right') :
    Coincide tokens n (Grammar.chain (some maxDepth) operand kind right)
      (Grammar.chain (some maxDepth) operand' kind right') := by
  intro s hs hn
  obtain ⟨answer, t, ho, ho', hreach, hle⟩ := ho s hs hn
  rw [run_chain, run_chain, ho, ho']
  match answer with
  | .error e => exact ⟨.error e, t, rfl, rfl, hreach, hle⟩
  | .ok none =>
    have hback := hs.ahead_restore hreach hle
    exact ⟨.ok none, _, rfl, rfl, hreach.restore s.tokens.mark, Nat.le_of_eq hback⟩
  | .ok (some a) =>
    obtain ⟨answer, u, hm, hm', hreach, hle'⟩ := chainAfter kind a hr t hreach (Nat.le_trans hle hn)
    exact ⟨answer, u, hm, hm', hreach, Nat.le_trans hle' hle⟩

theorem bracketAfter (b : Bracket) {body body' : Production}
    (h : Coincide tokens n body body') :
    Coincide tokens n (Grammar.bracketAfter b body) (Grammar.bracketAfter b body') := by
  refine .bind h fun operand => ?_
  cases operand with
  | none => exact .throw _
  | some a => exact .bind (.expect _ _) fun _ => .ret _

theorem group {inner inner' : Level → Production}
    (h : ∀ k, k < n → Coincide tokens k (inner .sum) (inner' .sum)) :
    Coincide tokens n (Grammar.group (some maxDepth) inner)
      (Grammar.group (some maxDepth) inner') := by
  have hbody (b : Bracket) (k : Nat) (hk : k < n) := bracketAfter b (.nested (h k hk))
  refine .accepted .sqrt ?_ fun k hk _ => .bind (.expect _ _) fun _ => hbody .sqrt k hk
  refine .accepted .openParen ?_ fun k hk _ => hbody .paren k hk
  refine .bind (.accept .number) fun number => ?_
  cases number with
  | none => exact .ret none
  | some token =>
    dsimp only
    cases Numeral.read? token.lexeme with
    | none => exact .throw _
    | some v => exact .ret _

end Coincide

end Abacus.Grammar
