import Abacus.Proofs.Grammar.Exact

/-!
# The depth limit

Up to the limit the descent reads as it would without one (`Reads.limited`), and
beyond it reports the depth (`Reads.refused`), at the first call too deep and
before it looks at what comes after (`Reads.tooDeep_whatever`).
-/

namespace Abacus.Grammar

namespace Reads

theorem limited (h : Reads none call level depth tokens answer rest trace) (hn : trace.peak ≤ n) :
    Reads (some n) call level depth tokens answer rest trace := by
  induction h with
  | tooDeep hlimit => cases hlimit
  | deeper _ _ ih =>
    obtain ⟨hd, hn⟩ := Trace.peak_append_le.mp hn
    exact .deeper (within_some.mpr hd) (ih hn)
  | operandFails rule _ ih => exact .operandFails rule (ih hn)
  | noOperand rule _ ih => exact .noOperand rule (ih hn)
  | operand rule _ hs ih => exact .operand rule (ih (Trace.peak_append_le.mp hn).1) hs
  | rightFails rule _ hop _ ihl ihr =>
    obtain ⟨hl, hr⟩ := Trace.peak_append_le.mp hn
    exact .rightFails rule (ihl hl) hop (ihr hr)
  | noRight rule _ hop _ ihl ihr =>
    obtain ⟨hl, hr⟩ := Trace.peak_append_le.mp hn
    exact .noRight rule (ihl hl) hop (ihr hr)
  | unknownOperator rule _ hop _ ho ihl ihr =>
    obtain ⟨hl, hr⟩ := Trace.peak_append_le.mp hn
    exact .unknownOperator rule (ihl hl) hop (ihr hr) ho
  | binary rule _ hop _ ho ihl ihr =>
    obtain ⟨hl, hr⟩ := Trace.peak_append_le.mp hn
    exact .binary rule (ihl hl) hop (ihr hr) ho
  | noGroup hs => exact .noGroup hs
  | number ht hv => exact .number ht hv
  | outOfRange ht hv => exact .outOfRange ht hv
  | bareRadical ht hs => exact .bareRadical ht hs
  | bodyFails ho _ ih => exact .bodyFails ho (ih hn)
  | noBody ho _ ih => exact .noBody ho (ih hn)
  | unclosed ho _ hs ih => exact .unclosed ho (ih hn) hs
  | bracket ho _ hc ih => exact .bracket ho (ih hn) hc

def Refused (n : Nat) (call : Call) (level : Level) (depth : Nat) (tokens : List Token) : Prop :=
  ∃ rest trace, Reads (some n) call level depth tokens (.error (.tooDeep n)) rest trace

theorem Refused.operandFails (rule : Chain level left kind right)
    (h : Refused n .same left depth tokens) : Refused n .same level depth tokens := by
  obtain ⟨rest, trace, h⟩ := h
  exact ⟨rest, trace, .operandFails rule h⟩

theorem Refused.rightFails (rule : Chain level left kind right) (hop : op.kind = kind)
    (hl : Reads none .same left depth tokens (.ok (some a)) (op :: middle) trace)
    (ihl : n < trace.peak → Refused n .same left depth tokens)
    (ihr : n < trace'.peak → Refused n .below right depth middle)
    (hn : n < (trace ++ trace').peak) : Refused n .same level depth tokens := by
  rcases Nat.lt_or_ge n trace.peak with hlt | hge
  · exact .operandFails rule (ihl hlt)
  · have hlt : n < trace'.peak := by
      rw [Trace.peak_append] at hn
      omega
    obtain ⟨rest, trace', hr⟩ := ihr hlt
    exact ⟨rest, _, .rightFails rule (hl.limited hge) hop hr⟩

theorem Refused.bodyFails {b : Bracket} (ho : b.Opens opening)
    (h : Refused n .below .sum depth body) : Refused n .same .group depth (opening ++ body) := by
  obtain ⟨rest, trace, h⟩ := h
  exact ⟨rest, trace, .bodyFails ho h⟩

theorem refused (h : Reads none call level depth tokens answer rest trace) (hd : depth ≤ n)
    (hn : n < trace.peak) : Refused n call level depth tokens := by
  induction h with
  | deeper _ _ ih =>
    simp only [Trace.peak_append, Trace.peak_enter] at hn
    exact below_tooDeep hd fun hlt => ih hlt (by omega)
  -- whatever else the reading comes to, the limited one has failed by then
  | operandFails rule _ ih | noOperand rule _ ih => exact .operandFails rule (ih hd hn)
  | operand rule _ _ ih => exact .operandFails rule (ih hd (by simpa using hn))
  | rightFails rule hl hop _ ihl ihr | noRight rule hl hop _ ihl ihr
  | unknownOperator rule hl hop _ _ ihl ihr | binary rule hl hop _ _ ihl ihr =>
    exact .rightFails rule hop hl (ihl hd) (ihr hd) hn
  | bodyFails ho _ ih | noBody ho _ ih | unclosed ho _ _ ih | bracket ho _ _ ih =>
    exact .bodyFails ho (ih hd hn)
  | tooDeep | noGroup | number | outOfRange | bareRadical =>
    exact absurd hn (Nat.not_lt_zero _)

theorem answer_ne_tooDeep (h : Reads none call level depth tokens answer rest trace) :
    answer ≠ .error (.tooDeep n) := by
  induction h with
  | tooDeep hlimit => cases hlimit
  | deeper _ _ ih | operandFails _ _ ih | rightFails _ _ _ _ _ ih | bodyFails _ _ ih => exact ih
  | @noBody _ _ _ _ _ b | @unclosed _ _ _ _ _ _ b => cases b <;> exact nofun
  | _ => exact nofun

theorem tooDeep_whatever
    (h : Reads limit call level depth tokens (.error (.tooDeep n)) rest trace) :
    Takes (fun _ => True) (Reads limit call level depth · (.error (.tooDeep n)) · trace) tokens
      rest := by
  generalize ha : (.error (.tooDeep n) : Answer) = answer at h
  induction h with
  | tooDeep hlimit hle =>
    cases ha
    exact .nothing fun _ _ => .tooDeep hlimit hle
  | deeper hd _ ih => exact (ih ha).imp fun _ _ _ => .deeper hd
  | operandFails rule _ ih => exact (ih ha).imp fun _ _ _ => .operandFails rule
  | rightFails rule hl hop _ _ ihr =>
    exact hl.lookahead.right (ihr ha) fun _ _ _ _ hl => .rightFails rule hl hop
  | bodyFails ho _ ih => exact (ih ha).opened fun _ _ _ => .bodyFails ho
  | @noBody _ _ _ _ _ b | @unclosed _ _ _ _ _ _ b => cases b <;> cases ha
  | _ => cases ha

end Reads

theorem Reads.run_deepest (h : Reads limit .same .sum 0 tokens answer rest trace)
    (hroom : tokens.length < room) :
    ((Grammar.sentence limit room).run (.ofTokens tokens)).1 = verdict answer rest ∧
      ((Grammar.sentence limit room).run (.ofTokens tokens)).2.deepest = trace.peak := by
  obtain ⟨c, hc⟩ := h.run_sentence hroom
  rw [hc]
  exact ⟨rfl, Nat.zero_max _⟩

theorem Reads.run_depth (h : Reads limit .same .sum 0 tokens answer rest trace)
    (hroom : tokens.length < room) :
    ((Grammar.sentence limit room).run (.ofTokens tokens)).2.depth = 0 := by
  obtain ⟨c, hc⟩ := h.run_sentence hroom
  rw [hc]
  rfl

theorem Reads.verdict_ne_tooDeep (h : Reads none call level depth tokens answer rest trace) :
    verdict answer rest ≠ .error (.tooDeep n) := by
  have hne := h.answer_ne_tooDeep (n := n)
  match answer, rest with
  | .error e, _ => exact fun he => hne (congrArg _ (Except.error.inj he))
  | .ok none, _ | .ok (some _), [] | .ok (some _), _ :: _ => exact nofun

theorem Reads.ofTokens_within (h : Reads none .same .sum 0 tokens answer rest trace)
    (hn : trace.peak ≤ maxDepth) : Expr.ofTokens tokens = verdict answer rest :=
  (h.limited hn).ofTokens_eq

theorem Reads.ofTokens_beyond (h : Reads none .same .sum 0 tokens answer rest trace)
    (hn : maxDepth < trace.peak) :
    ∃ p, p <+: tokens ∧ ∀ more, Expr.ofTokens (p ++ more) = .error (.tooDeep maxDepth) := by
  obtain ⟨rest', trace', hr⟩ := h.refused (Nat.zero_le _) hn
  obtain ⟨taken, rfl, hany⟩ := hr.tooDeep_whatever
  exact ⟨taken, List.prefix_append .., fun more => (hany more trivial).ofTokens_eq⟩

/-- The limit replaces a result by its error or leaves it as it is. It does the
former exactly if the descent without it gets deeper, and what it has consumed
by then decides. That descent ends on every list: any room beyond one more than
its length changes nothing. It gets as deep as the calls nest in the reading by
the rules, and comes all the way back up. -/
theorem ofTokens_eq_unlimited (tokens : List Token) :
    (Expr.ofTokens tokens =
      if maxDepth < (run none tokens).2.deepest then .error (.tooDeep maxDepth)
      else (run none tokens).1) ∧
    (maxDepth < (run none tokens).2.deepest ↔
      ∃ p, p <+: tokens ∧ ∀ more, Expr.ofTokens (p ++ more) = .error (.tooDeep maxDepth)) ∧
    (∀ spare, let outcome := (sentence none (tokens.length + 1 + spare)).run (.ofTokens tokens)
      outcome.1 = (run none tokens).1 ∧ outcome.2.deepest = (run none tokens).2.deepest) ∧
    ∃ answer rest trace, Reads none .same .sum 0 tokens answer rest trace ∧
      (run none tokens).1 = verdict answer rest ∧ (run none tokens).2.deepest = trace.peak ∧
      (run none tokens).2.depth = 0 := by
  obtain ⟨answer, rest, trace, h⟩ := answers none .same .sum 0 tokens
  obtain ⟨hresult, hdeepest⟩ := h.run_deepest (Nat.lt_succ_self _)
  have hbeyond : maxDepth < trace.peak ↔
      ∃ p, p <+: tokens ∧ ∀ more, Expr.ofTokens (p ++ more) = .error (.tooDeep maxDepth) := by
    refine ⟨h.ofTokens_beyond, ?_⟩
    rintro ⟨p, ⟨more, rfl⟩, hp⟩
    refine Nat.lt_of_not_le fun hle => ?_
    exact h.verdict_ne_tooDeep ((h.ofTokens_within hle).symm.trans (hp more))
  have hdepth : (run none tokens).2.depth = 0 := h.run_depth (Nat.lt_succ_self _)
  rw [run] at hdepth ⊢
  rw [hresult, hdeepest]
  refine ⟨?_, hbeyond, fun spare => h.run_deepest (by omega), _, _, _, h, rfl, rfl, hdepth⟩
  split
  · next hlt =>
    obtain ⟨p, ⟨more, rfl⟩, hp⟩ := hbeyond.mp hlt
    exact hp more
  · next hle => exact h.ofTokens_within (Nat.le_of_not_lt hle)

end Abacus.Grammar
