import Abacus.Proofs.CalculationLaws
import Abacus.Proofs.Grammar.Fallbacks
import Abacus.Proofs.Token.StreamLaws

/-! Once it has tokens, a calculation logs so, then the fallbacks of the parser, then
the tree and the value as far as it has them. -/

namespace Abacus.Calculation

open Grammar (isKind)

def conclusions (text : String) : List Record :=
  match Expr.ofText text, evaluate text with
  | .ok e, .ok v => [.parsed text e, .valued e v]
  | .ok e, .error _ => [.parsed text e]
  | .error _, _ => []

theorem value_run_toList (h : Token.ofText text = .ok tokens) (before : Array Record) :
    ((value text).run before).2.toList =
      before.toList ++ .tokenized text tokens.length ::
        ((Grammar.run (some Grammar.maxDepth) tokens).2.fallbacks.toList.map .fellBack ++
          conclusions text) := by
  simp only [value_run, tree_run, h, conclusions, evaluate_eq, Expr.ofText_eq h, Expr.ofTokens]
  obtain ⟨outcome, final⟩ := Grammar.run (some Grammar.maxDepth) tokens
  cases outcome with
  | error e => simp
  | ok e => cases he : e.value <;> simp [he, Except.bind]

def typed? : Record → Option String
  | .tokenized text _ | .parsed text _ => some text
  | .fellBack _ | .valued _ _ => none

theorem typed_of_mem_conclusions (hr : r ∈ conclusions text) (ht : typed? r = some quoted) :
    quoted = text := by
  unfold conclusions at hr
  split at hr
  · simp only [List.mem_cons, List.not_mem_nil, or_false] at hr
    obtain rfl | rfl := hr
    · cases ht
      rfl
    · cases ht
  · obtain rfl := List.mem_singleton.mp hr
    cases ht
    rfl
  · cases hr

/-- What the log quotes has been cut into tokens. -/
theorem quoted_ascii (hr : r ∈ ((value text).run #[]).2.toList) (ht : typed? r = some quoted) :
    quoted = text ∧ ∀ c ∈ quoted.toList, c.toNat < 0x80 := by
  cases h : Token.ofText text with
  | error e => simp [value_run, tree_run, h] at hr
  | ok tokens =>
    have hquoted : quoted = text := by
      simp only [value_run_toList h, List.nil_append, List.mem_cons, List.mem_append,
        List.mem_map] at hr
      obtain rfl | ⟨_, -, rfl⟩ | hr := hr
      · cases ht
        rfl
      · cases ht
      · exact typed_of_mem_conclusions hr ht
    exact ⟨hquoted, hquoted ▸ (Token.ofText_eq_iff.mp h).ascii⟩

/-- Once it has tokens, a calculation logs their number, then TRACE records of
the parser, and then what it concludes. There are at most three of these records
for each token. Beside a tree the tokens say how many, and each shows a part of
that tree. -/
theorem value_log (h : Token.ofText text = .ok tokens) :
    ∃ traces : List Record,
      (∀ before, ((value text).run before).2.toList =
        before.toList ++ .tokenized text tokens.length :: (traces ++ conclusions text)) ∧
      (∀ r ∈ traces, r.level = .trace ∧ r.stage = .parsing) ∧
      traces.length ≤ 3 * tokens.length ∧
      ∀ e, Expr.ofText text = .ok e →
        traces.length + tokens.countP (isKind .powerOp) =
          3 + 3 * tokens.countP (isKind .openParen) + 2 * tokens.countP (isKind .sumOp) +
            tokens.countP (isKind .termOp) ∧
        ∀ r ∈ traces, ∃ kind, ∃ part ∈ e.parts, r = .fellBack ⟨kind, part⟩ := by
  obtain ⟨hle, htally⟩ := Grammar.run_fallbacks (some Grammar.maxDepth) tokens
  refine ⟨_, value_run_toList h, ?_, by simpa using hle, fun e he => ?_⟩
  · simp [Record.level, Record.stage]
  have hread : Expr.ofTokens tokens = .ok e := by
    obtain ⟨tokens', htokens, hread⟩ := Expr.ofText_eq_ok_iff.mp he
    cases h.symm.trans htokens
    exact hread
  have ht := htally e hread
  constructor
  · have hcount := ht.count
    have hshares := Grammar.shares_eq tokens
    simp only [Grammar.shares, Grammar.Level.rank, List.map_nil, List.sum_nil, List.length_map] at *
    omega
  · intro r hr
    obtain ⟨⟨kind, part⟩, hf, rfl⟩ := List.mem_map.mp hr
    exact ⟨kind, part, ht.parts _ hf, rfl⟩

theorem value_log_of_power_and_of_open_group :
    let text := "2*(3+4)^2"
    let tree := Expr.binary .mul (.num 2) (.binary .pow (.binary .add (.num 3) (.num 4)) (.num 2))
    (∃ traces : List Record,
      ((value text).run #[]).2.toList =
        .tokenized text 9 :: (traces ++ [.parsed text tree, .valued tree 98]) ∧
      traces.length = 8 ∧ ∀ r ∈ traces, ∃ kind, ∃ part ∈ tree.parts, r = .fellBack ⟨kind, part⟩) ∧
    ∃ traces : List Record,
      ((value "(1+").run #[]).2.toList = .tokenized "(1+" 3 :: traces ∧
      (∀ r ∈ traces, r.level = .trace ∧ r.stage = .parsing) ∧ traces.length ≤ 9 := by
  intro text tree
  have htext : Token.ofText text =
      .ok [⟨.number, "2"⟩, ⟨.termOp, "*"⟩, ⟨.openParen, "("⟩, ⟨.number, "3"⟩, ⟨.sumOp, "+"⟩,
        ⟨.number, "4"⟩, ⟨.closeParen, ")"⟩, ⟨.powerOp, "^"⟩, ⟨.number, "2"⟩] := by decide +kernel
  have htree : Expr.ofText text = .ok tree := by decide +kernel
  have hvalue : evaluate text = .ok 98 := by decide +kernel
  have hopen : Token.ofText "(1+" = .ok [⟨.openParen, "("⟩, ⟨.number, "1"⟩, ⟨.sumOp, "+"⟩] := by
    decide +kernel
  have hfails : Expr.ofText "(1+" = .error (.syntactic (.missingOperand "+")) := by decide +kernel
  obtain ⟨traces, hlog, -, -, hparsed⟩ := value_log htext
  obtain ⟨traces', hlog', htraces, hle, -⟩ := value_log hopen
  obtain ⟨hcount, hparts⟩ := hparsed tree htree
  refine ⟨⟨traces, ?_, ?_, hparts⟩, traces', ?_, htraces, hle⟩
  · simpa [conclusions, htree, hvalue] using hlog #[]
  · simpa [isKind] using hcount
  · simpa [conclusions, hfails] using hlog' #[]

end Abacus.Calculation
