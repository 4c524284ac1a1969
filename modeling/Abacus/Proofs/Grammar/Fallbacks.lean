import Abacus.Proofs.Arithmetic.Exact
import Abacus.Proofs.Grammar.Height

/-!
# Fallbacks

A fallback is a production that ends without its operator, so the count only
depends on the productions that begin and on the operators that come. Each token
has its share in that, exactly in a reading that succeeds (`Reads.tally`).
-/

namespace Abacus

/-- What a token of this kind adds to the fallbacks. With an opening parenthesis
three productions begin that look for an operator. An operator ends the search
of one of them, and with its right operand others begin. -/
def Token.Kind.share : Token.Kind → Int
  | .openParen => 3
  | .sumOp => 2
  | .termOp => 1
  | .powerOp => -1
  | .number | .closeParen | .sqrt => 0

namespace Grammar

def shares (tokens : List Token) : Int := (tokens.map (·.kind.share)).sum

@[simp] theorem shares_cons (t : Token) (tokens : List Token) :
    shares (t :: tokens) = t.kind.share + shares tokens := rfl

@[simp] theorem shares_append (a b : List Token) : shares (a ++ b) = shares a + shares b := by
  simp [shares]

theorem shares_eq (tokens : List Token) :
    shares tokens + tokens.countP (isKind .powerOp) =
      3 * tokens.countP (isKind .openParen) + 2 * tokens.countP (isKind .sumOp) +
        tokens.countP (isKind .termOp) := by
  induction tokens with
  | nil => rfl
  | cons t tokens ih =>
    obtain ⟨kind, lexeme⟩ := t
    cases kind <;> simp [isKind, Token.Kind.share] <;> omega

theorem Bracket.Opens.shares_eq {b : Bracket} (ho : b.Opens opening) : shares opening = 3 := by
  cases ho <;> simp_all [shares, Token.Kind.share]

theorem Chain.share_eq (rule : Chain level left kind right) : kind.share + 1 = right.rank := by
  cases rule <;> rfl

theorem Chain.rank_le (rule : Chain level left kind right) : level.rank ≤ 3 := by
  cases rule <;> decide

/-- The fallbacks of a production that takes the tree `e` off the tokens: as many
as its level and the tokens it takes make it, and each to a part of the tree. -/
structure Tally (level : Level) (e : Expr) (tokens rest : List Token)
    (fallbacks : List Fallback) : Prop where
  count : fallbacks.length + shares rest = level.rank + shares tokens
  parts : ∀ f ∈ fallbacks, f.operand ∈ e.parts

namespace Tally

theorem number (ht : t.kind = .number) : Tally .group (.num v) (t :: rest) rest [] where
  count := by simp [ht, Token.Kind.share, Level.rank]
  parts := nofun

theorem bracket {b : Bracket} (ho : b.Opens opening)
    (h : Tally .sum a body (close :: rest) fallbacks) (hc : close.kind = .closeParen) :
    Tally .group (b.wrap a) (opening ++ body) rest fallbacks where
  count := by
    have hbody := h.count
    have hopening := ho.shares_eq
    simp only [shares_cons, shares_append, hc, Token.Kind.share, Level.rank] at *
    omega
  parts f hf := by
    have := h.parts f hf
    cases b with
    | paren => exact this
    | sqrt => exact List.mem_cons_of_mem _ this

theorem operand (rule : Chain level left kind right) (h : Tally left a tokens rest fallbacks) :
    Tally level a tokens rest (fallbacks ++ [⟨kind, a⟩]) where
  count := by
    have hoperand := h.count
    have hrank := rule.rank_left
    simp only [List.length_append, List.length_singleton]
    omega
  parts := List.forall_mem_append.mpr ⟨h.parts, by simpa using a.self_mem_parts⟩

theorem binary (rule : Chain level left kind right)
    (hl : Tally left a tokens (op :: middle) fallbacks) (hop : op.kind = kind)
    (hr : Tally right b middle rest fallbacks') :
    Tally level (.binary operator a b) tokens rest (fallbacks ++ fallbacks') where
  count := by
    have hleft := hl.count
    have hright := hr.count
    have hrank := rule.rank_left
    have hshare := rule.share_eq
    simp only [shares_cons, hop, List.length_append] at *
    omega
  parts := by
    rintro f hf
    rcases List.mem_append.mp hf with hf | hf
    · exact List.mem_cons_of_mem _ (List.mem_append_left _ (hl.parts f hf))
    · exact List.mem_cons_of_mem _ (List.mem_append_right _ (hr.parts f hf))

end Tally

theorem Reads.tally (h : Reads limit call level depth tokens (.ok (some e)) rest trace) :
    Tally level e tokens rest trace.fallbacks := by
  generalize ha : (.ok (some e) : Answer) = answer at h
  induction h generalizing e with
  | deeper _ _ ih => exact ih ha
  | operand rule _ _ ih =>
    cases ha
    exact (ih rfl).operand rule
  | binary rule _ hop _ _ ihl ihr =>
    cases ha
    exact (ihl rfl).binary rule hop (ihr rfl)
  | number ht =>
    cases ha
    exact .number ht
  | bracket ho _ hc ih =>
    cases ha
    exact (ih rfl).bracket ho hc
  | _ => cases ha

/-- How many fallbacks to its tree may still come from the levels above. -/
def Level.spare (level : Level) : Answer → Nat
  | .ok (some _) => 3 - level.rank
  | _ => 0

/-- Three for each token taken pay for all fallbacks, and a tree leaves enough for
those that the levels above may add. -/
theorem Reads.fallbacks_le (h : Reads limit call level depth tokens answer rest trace) :
    trace.fallbacks.length + level.spare answer + 3 * rest.length ≤ 3 * tokens.length := by
  induction h with
  | tooDeep | noGroup => simp [Level.spare]
  | deeper _ _ ih | operandFails _ _ ih | noOperand _ _ ih => simpa [Level.spare] using ih
  | operand rule _ _ ih =>
    have hrank := rule.rank_left
    have hle := rule.rank_le
    simp only [Level.spare, Trace.fallbacks_append, Trace.fallbacks_fellBack, List.length_append,
      List.length_singleton] at *
    omega
  | rightFails rule _ _ _ ihl ihr | noRight rule _ _ _ ihl ihr
  | unknownOperator rule _ _ _ _ ihl ihr | binary rule _ _ _ _ ihl ihr =>
    have hrank := rule.rank_left
    simp only [Level.spare, Trace.fallbacks_append, List.length_append, List.length_cons] at *
    omega
  | number | outOfRange | bareRadical =>
    simp only [Level.spare, Level.rank, Trace.fallbacks_empty, List.length_nil, List.length_cons]
    omega
  | bodyFails ho _ ih | noBody ho _ ih | unclosed ho _ _ ih | bracket ho _ _ ih =>
    -- The opening pays for what the levels above a group may add.
    have hopening := ho.length_pos
    simp only [Level.spare, Level.rank, List.length_append, List.length_cons] at *
    omega

theorem run_fallbacks (limit : Option Nat) (tokens : List Token) :
    (run limit tokens).2.fallbacks.size ≤ 3 * tokens.length ∧
      ∀ e, (run limit tokens).1 = .ok e →
        Tally .sum e tokens [] (run limit tokens).2.fallbacks.toList := by
  obtain ⟨answer, rest, trace, h⟩ := answers limit .same .sum 0 tokens
  obtain ⟨c, hc⟩ := h.run_eq
  have hfallbacks : (run limit tokens).2.fallbacks = trace.fallbacks.toArray := by
    simp [hc, State.after, State.ofTokens]
  rw [hfallbacks, hc]
  constructor
  · have hle := h.fallbacks_le
    simp only [List.size_toArray]
    omega
  · intro e he
    simp only [verdict] at he
    split at he <;> cases he
    exact h.tally

end Grammar

end Abacus
