import Abacus.Proofs.Grammar.Derivation

/-!
# Reading by rules

`Reads` is the descent without cursor, fuel or monad: one rule for each way a
production can go, with the answer, the tokens it leaves and what it does on the
side. Every call has an answer (`answers`), and of what it leaves a production
sees the first token only (`Reads.lookahead`).
-/

namespace Abacus.Grammar

/-- What a production does besides answering: the greatest depth it enters,
zero if none, and the operands it falls back to. -/
structure Trace where
  peak : Nat
  fallbacks : List Fallback

namespace Trace

def empty : Trace := ⟨0, []⟩

def append (a b : Trace) : Trace := ⟨max a.peak b.peak, a.fallbacks ++ b.fallbacks⟩

instance : Append Trace := ⟨append⟩

theorem append_def (a b : Trace) : a ++ b = ⟨max a.peak b.peak, a.fallbacks ++ b.fallbacks⟩ := rfl

@[simp] theorem empty_append (trace : Trace) : .empty ++ trace = trace := by
  simp [append_def, empty]

@[simp] theorem append_empty (trace : Trace) : trace ++ .empty = trace := by
  simp [append_def, empty]

def enter (depth : Nat) : Trace := ⟨depth, []⟩

def fellBack (fallback : Fallback) : Trace := ⟨0, [fallback]⟩

@[simp] theorem peak_append (a b : Trace) : (a ++ b).peak = max a.peak b.peak := rfl

theorem peak_append_le {a b : Trace} : (a ++ b).peak ≤ n ↔ a.peak ≤ n ∧ b.peak ≤ n := Nat.max_le

@[simp] theorem peak_empty : Trace.empty.peak = 0 := rfl

@[simp] theorem peak_enter (depth : Nat) : (enter depth).peak = depth := rfl

@[simp] theorem peak_fellBack (fallback : Fallback) : (fellBack fallback).peak = 0 := rfl

@[simp] theorem fallbacks_append (a b : Trace) :
    (a ++ b).fallbacks = a.fallbacks ++ b.fallbacks := rfl

@[simp] theorem fallbacks_empty : Trace.empty.fallbacks = [] := rfl

@[simp] theorem fallbacks_enter (depth : Nat) : (enter depth).fallbacks = [] := rfl

@[simp] theorem fallbacks_fellBack (fallback : Fallback) :
    (fellBack fallback).fallbacks = [fallback] := rfl

end Trace

inductive Call where
  | same
  | below

abbrev Answer := Except SyntaxError (Option Expr)

namespace Bracket

def emptyError : Bracket → SyntaxError
  | paren => .emptyGroup
  | sqrt => .emptyRadical

def unclosedError : Bracket → SyntaxError
  | paren => .unclosedGroup
  | sqrt => .unclosedRadical

end Bracket

def isKind (kind : Token.Kind) (t : Token) : Bool := t.kind = kind

@[simp] theorem isKind_eq_true_iff : isKind kind t = true ↔ t.kind = kind := decide_eq_true_iff

theorem exists_kind_of_not_stops (h : ¬ Stops (isKind kind) tokens) :
    ∃ t rest, tokens = t :: rest ∧ t.kind = kind := by
  simpa using exists_of_not_stops h

def begins (t : Token) : Bool := t.kind ∈ [.number, .openParen, .sqrt]

def Within (limit : Option Nat) (depth : Nat) : Prop := ∀ n, limit = some n → depth ≤ n

theorem Within.mono (h : Within limit depth') (hle : depth ≤ depth') : Within limit depth :=
  fun n hn => Nat.le_trans hle (h n hn)

@[simp] theorem within_some : Within (some n) depth ↔ depth ≤ n :=
  ⟨fun h => h n rfl, fun h _ hm => Option.some.inj hm ▸ h⟩

theorem within_or (limit : Option Nat) (depth : Nat) :
    Within limit (depth + 1) ∨ ∃ n, limit = some n ∧ n ≤ depth := by
  cases limit with
  | none => exact .inl nofun
  | some n =>
    rcases Nat.lt_or_ge depth n with hlt | hge
    · exact .inl fun _ hm => Option.some.inj hm ▸ hlt
    · exact .inr ⟨n, rfl, hge⟩

/-- `Reads limit call level depth tokens answer rest trace`: before `tokens` the
production has this answer, leaves `rest` and does `trace`. -/
inductive Reads (limit : Option Nat) :
    Call → Level → Nat → List Token → Answer → List Token → Trace → Prop
  | tooDeep : limit = some n → n ≤ depth →
      Reads limit .below level depth tokens (.error (.tooDeep n)) tokens .empty
  | deeper : Within limit (depth + 1) →
      Reads limit .same level (depth + 1) tokens answer rest trace →
      Reads limit .below level depth tokens answer rest (.enter (depth + 1) ++ trace)
  | operandFails : Chain level left kind right →
      Reads limit .same left depth tokens (.error e) rest trace →
      Reads limit .same level depth tokens (.error e) rest trace
  | noOperand : Chain level left kind right →
      Reads limit .same left depth tokens (.ok none) tokens trace →
      Reads limit .same level depth tokens (.ok none) tokens trace
  | operand : Chain level left kind right →
      Reads limit .same left depth tokens (.ok (some a)) rest trace →
      Stops (isKind kind) rest →
      Reads limit .same level depth tokens (.ok (some a)) rest (trace ++ .fellBack ⟨kind, a⟩)
  | rightFails : Chain level left kind right →
      Reads limit .same left depth tokens (.ok (some a)) (op :: middle) trace →
      op.kind = kind →
      Reads limit .below right depth middle (.error e) rest trace' →
      Reads limit .same level depth tokens (.error e) rest (trace ++ trace')
  | noRight : Chain level left kind right →
      Reads limit .same left depth tokens (.ok (some a)) (op :: middle) trace →
      op.kind = kind →
      Reads limit .below right depth middle (.ok none) rest trace' →
      Reads limit .same level depth tokens (.error (.missingOperand op.lexeme)) rest
        (trace ++ trace')
  | unknownOperator : Chain level left kind right →
      Reads limit .same left depth tokens (.ok (some a)) (op :: middle) trace →
      op.kind = kind →
      Reads limit .below right depth middle (.ok (some b)) rest trace' →
      Operator.ofSymbol? op.lexeme = none →
      Reads limit .same level depth tokens (.error (.unknownOperator op.lexeme)) rest
        (trace ++ trace')
  | binary : Chain level left kind right →
      Reads limit .same left depth tokens (.ok (some a)) (op :: middle) trace →
      op.kind = kind →
      Reads limit .below right depth middle (.ok (some b)) rest trace' →
      Operator.ofSymbol? op.lexeme = some operator →
      Reads limit .same level depth tokens (.ok (some (.binary operator a b))) rest
        (trace ++ trace')
  | noGroup : Stops begins tokens →
      Reads limit .same .group depth tokens (.ok none) tokens .empty
  | number : t.kind = .number → Numeral.read? t.lexeme = some v →
      Reads limit .same .group depth (t :: rest) (.ok (some (.num v))) rest .empty
  | outOfRange : t.kind = .number → Numeral.read? t.lexeme = none →
      Reads limit .same .group depth (t :: rest) (.error (.numberOutOfRange t.lexeme)) rest
        .empty
  | bareRadical : t.kind = .sqrt → Stops (isKind .openParen) rest →
      Reads limit .same .group depth (t :: rest) (.error .missingRadicalParen) rest .empty
  | bodyFails {b : Bracket} : b.Opens opening →
      Reads limit .below .sum depth body (.error e) rest trace →
      Reads limit .same .group depth (opening ++ body) (.error e) rest trace
  | noBody {b : Bracket} : b.Opens opening →
      Reads limit .below .sum depth body (.ok none) rest trace →
      Reads limit .same .group depth (opening ++ body) (.error b.emptyError) rest trace
  | unclosed {b : Bracket} : b.Opens opening →
      Reads limit .below .sum depth body (.ok (some a)) rest trace →
      Stops (isKind .closeParen) rest →
      Reads limit .same .group depth (opening ++ body) (.error b.unclosedError) rest trace
  | bracket {b : Bracket} : b.Opens opening →
      Reads limit .below .sum depth body (.ok (some a)) (close :: rest) trace →
      close.kind = .closeParen →
      Reads limit .same .group depth (opening ++ body) (.ok (some (b.wrap a))) rest trace

theorem Reads.rest_eq_of_none (h : Reads limit call level depth tokens (.ok none) rest trace) :
    rest = tokens := by
  generalize ha : (.ok none : Answer) = answer at h
  induction h <;> simp_all

-- ---------------------------------------------------------------------------
-- What is taken
-- ---------------------------------------------------------------------------

/-- The rest ends the tokens, and with those before it `R` holds of every rest
that `Next` allows. -/
def Takes (Next : List Token → Prop) (R : List Token → List Token → Prop)
    (tokens rest : List Token) : Prop :=
  ∃ taken, tokens = taken ++ rest ∧ ∀ rest', Next rest' → R (taken ++ rest') rest'

namespace Takes

variable {Next : List Token → Prop} {R R' S : List Token → List Token → Prop}

theorem nothing (h : ∀ rest, Next rest → R rest rest) : Takes Next R tokens tokens :=
  ⟨[], rfl, h⟩

theorem token (h : ∀ rest, Next rest → R (t :: rest) rest) : Takes Next R (t :: rest) rest :=
  ⟨[t], rfl, h⟩

theorem imp (h : Takes Next R tokens rest)
    (hsame : ∀ tokens rest, Next rest → R tokens rest → S tokens rest) :
    Takes Next S tokens rest := by
  obtain ⟨taken, rfl, h⟩ := h
  exact ⟨taken, rfl, fun rest' hn => hsame _ _ hn (h rest' hn)⟩

theorem right (hl : Takes (·.head? = some op) R tokens (op :: middle))
    (hr : Takes Next R' middle rest)
    (hboth : ∀ tokens middle rest, Next rest → R tokens (op :: middle) → R' middle rest →
      S tokens rest) : Takes Next S tokens rest := by
  obtain ⟨taken, rfl, hl⟩ := hl
  obtain ⟨taken', rfl, hr⟩ := hr
  refine ⟨taken ++ op :: taken', by simp, fun rest' hn => ?_⟩
  have h := hboth _ _ _ hn (hl (op :: (taken' ++ rest')) rfl) (hr rest' hn)
  simpa using h

theorem opened (h : Takes Next R body rest)
    (hbody : ∀ body rest, Next rest → R body rest → S (opening ++ body) rest) :
    Takes Next S (opening ++ body) rest := by
  obtain ⟨taken, rfl, h⟩ := h
  refine ⟨opening ++ taken, by simp, fun rest' hn => ?_⟩
  simpa using hbody _ _ hn (h rest' hn)

theorem closed (h : Takes (·.head? = some close) R body (close :: rest))
    (hbody : ∀ body rest, R body (close :: rest) → S (opening ++ body) rest) :
    Takes Next S (opening ++ body) rest := by
  obtain ⟨taken, rfl, h⟩ := h
  refine ⟨opening ++ (taken ++ [close]), by simp, fun rest' _ => ?_⟩
  simpa using hbody _ _ (h (close :: rest') rfl)

end Takes

namespace Reads

theorem lookahead (h : Reads limit call level depth tokens answer rest trace) :
    Takes (·.head? = rest.head?) (Reads limit call level depth · answer · trace) tokens rest := by
  induction h with
  | tooDeep hlimit hle => exact .nothing fun _ _ => .tooDeep hlimit hle
  | deeper hd _ ih => exact ih.imp fun _ _ _ => .deeper hd
  | operandFails rule _ ih => exact ih.imp fun _ _ _ => .operandFails rule
  | noOperand rule _ ih =>
    refine ih.imp fun _ _ _ h => ?_
    obtain rfl := h.rest_eq_of_none
    exact .noOperand rule h
  | operand rule _ hs ih => exact ih.imp fun _ _ hh h => .operand rule h (hs.congr hh)
  | rightFails rule _ hop _ ihl ihr => exact ihl.right ihr fun _ _ _ _ hl => .rightFails rule hl hop
  | noRight rule _ hop _ ihl ihr => exact ihl.right ihr fun _ _ _ _ hl => .noRight rule hl hop
  | unknownOperator rule _ hop _ ho ihl ihr =>
    exact ihl.right ihr fun _ _ _ _ hl hr => .unknownOperator rule hl hop hr ho
  | binary rule _ hop _ ho ihl ihr =>
    exact ihl.right ihr fun _ _ _ _ hl hr => .binary rule hl hop hr ho
  | noGroup hs => exact .nothing fun _ hh => .noGroup (hs.congr hh)
  | number ht hv => exact .token fun _ _ => .number ht hv
  | outOfRange ht hv => exact .token fun _ _ => .outOfRange ht hv
  | bareRadical ht hs => exact .token fun _ hh => .bareRadical ht (hs.congr hh)
  | bodyFails ho _ ih => exact ih.opened fun _ _ _ => .bodyFails ho
  | noBody ho _ ih => exact ih.opened fun _ _ _ => .noBody ho
  | unclosed ho _ hs ih => exact ih.opened fun _ _ hh h => .unclosed ho h (hs.congr hh)
  | bracket ho _ hc ih => exact ih.closed fun _ _ h => .bracket ho h hc

theorem suffix (h : Reads limit call level depth tokens answer rest trace) : rest <:+ tokens := by
  obtain ⟨taken, rfl, -⟩ := h.lookahead
  exact List.suffix_append ..

theorem length_lt (h : Reads limit call level depth tokens (.ok (some e)) rest trace) :
    rest.length < tokens.length := by
  generalize ha : (.ok (some e) : Answer) = answer at h
  induction h generalizing e with
  | deeper _ _ ih | operand _ _ _ ih => exact ih ha
  | number => simp
  | binary _ _ _ hr _ ihl =>
    have := hr.suffix.length_le
    have := ihl rfl
    simp only [List.length_cons] at this
    omega
  | bracket ho hb _ _ =>
    have := hb.suffix.length_le
    simp only [List.length_cons, List.length_append] at *
    omega
  | _ => cases ha

end Reads

-- ---------------------------------------------------------------------------
-- Every call has an answer
-- ---------------------------------------------------------------------------

def Answers (limit : Option Nat) (call : Call) (level : Level) (depth : Nat)
    (tokens : List Token) : Prop :=
  ∃ answer rest trace, Reads limit call level depth tokens answer rest trace

theorem Answers.nested (h : Answers limit .same level (depth + 1) tokens) :
    Answers limit .below level depth tokens := by
  obtain ⟨answer, rest, trace, h⟩ := h
  rcases within_or limit depth with hd | ⟨n, hn, hle⟩
  · exact ⟨_, _, _, .deeper hd h⟩
  · exact ⟨_, _, _, .tooDeep hn hle⟩

theorem Answers.chain (rule : Chain level left kind right)
    (hl : Answers limit .same left depth tokens)
    (hr : ∀ middle, middle.length < tokens.length → Answers limit .below right depth middle) :
    Answers limit .same level depth tokens := by
  obtain ⟨answer, rest, trace, hl⟩ := hl
  match answer with
  | .error e => exact ⟨_, _, _, .operandFails rule hl⟩
  | .ok none =>
    obtain rfl := hl.rest_eq_of_none
    exact ⟨_, _, _, .noOperand rule hl⟩
  | .ok (some a) =>
    by_cases hs : Stops (isKind kind) rest
    · exact ⟨_, _, _, .operand rule hl hs⟩
    obtain ⟨op, middle, rfl, hop⟩ := exists_kind_of_not_stops hs
    have hlt := hl.length_lt
    obtain ⟨answer', rest, trace', hr⟩ := hr middle (by simp at hlt; omega)
    match answer' with
    | .error e => exact ⟨_, _, _, .rightFails rule hl hop hr⟩
    | .ok none => exact ⟨_, _, _, .noRight rule hl hop hr⟩
    | .ok (some b) =>
      cases ho : Operator.ofSymbol? op.lexeme with
      | none => exact ⟨_, _, _, .unknownOperator rule hl hop hr ho⟩
      | some operator => exact ⟨_, _, _, .binary rule hl hop hr ho⟩

theorem Answers.bracket {b : Bracket} (ho : b.Opens opening)
    (h : Answers limit .below .sum depth body) :
    Answers limit .same .group depth (opening ++ body) := by
  obtain ⟨answer, rest, trace, h⟩ := h
  match answer with
  | .error e => exact ⟨_, _, _, .bodyFails ho h⟩
  | .ok none => exact ⟨_, _, _, .noBody ho h⟩
  | .ok (some a) =>
    by_cases hs : Stops (isKind .closeParen) rest
    · exact ⟨_, _, _, .unclosed ho h hs⟩
    obtain ⟨close, rest, rfl, hc⟩ := exists_kind_of_not_stops hs
    exact ⟨_, _, _, .bracket ho h hc⟩

theorem Answers.group
    (h : ∀ body, body.length < tokens.length → Answers limit .below .sum depth body) :
    Answers limit .same .group depth tokens := by
  by_cases hs : Stops begins tokens
  · exact ⟨_, _, _, .noGroup hs⟩
  obtain ⟨t, rest, rfl, ht⟩ := exists_of_not_stops hs
  simp only [begins, List.mem_cons, List.not_mem_nil, or_false, decide_eq_true_eq] at ht
  rcases ht with ht | ht | ht
  · cases hr : Numeral.read? t.lexeme with
    | none => exact ⟨_, _, _, .outOfRange ht hr⟩
    | some v => exact ⟨_, _, _, .number ht hr⟩
  · exact .bracket (.paren ht) (h rest (by simp))
  · by_cases hs : Stops (isKind .openParen) rest
    · exact ⟨_, _, _, .bareRadical ht hs⟩
    obtain ⟨o, rest, rfl, ho⟩ := exists_kind_of_not_stops hs
    exact .bracket (.sqrt ht ho) (h rest (by simp only [List.length_cons]; omega))

theorem answers (limit : Option Nat) (call : Call) (level : Level) (depth : Nat)
    (tokens : List Token) : Answers limit call level depth tokens := by
  induction hn : tokens.length using Nat.strongRecOn generalizing tokens call level depth with
  | ind n ih =>
    subst hn
    -- a call below comes after a token of its own, one at the same depth is of a lower level
    have hshort (level : Level) (depth : Nat) (rest : List Token)
        (h : rest.length < tokens.length) :
        Answers limit .below level depth rest := ih _ h _ _ _ _ rfl
    have hlevel (level : Level) (depth : Nat) : Answers limit .same level depth tokens := by
      have hgroup := Answers.group (hshort .sum depth)
      have hpower := hgroup.chain .power (hshort .group depth)
      have hterm := hpower.chain .term (hshort .term depth)
      have hsum := hterm.chain .sum (hshort .sum depth)
      cases level <;> assumption
    cases call with
    | same => exact hlevel level depth
    | below => exact (hlevel level (depth + 1)).nested

end Abacus.Grammar
