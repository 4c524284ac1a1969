import Abacus.Grammar.Descent
import Abacus.Proofs.Cursor.PatternLaws
import Abacus.Proofs.NumeralLaws

/-!
# Derivations

The grammar apart from the descent. Only the kinds of the tokens are restricted;
the tree depends on the lexemes and need not exist (`Means`). The grammar is
unambiguous, also before tokens that cannot go on (`Derivation.unique`).
-/

namespace Abacus

def Token.Kind.isOperator : Token.Kind → Bool
  | .sumOp | .termOp | .powerOp => true
  | _ => false

/-- A number has a 64-bit integer for its lexeme, an operator one of the symbols. -/
structure Token.Legible (t : Token) : Prop where
  number : t.kind = .number → ∃ v : Int64, Numeral.Spells t.lexeme.toList v.toInt
  operator : t.kind.isOperator = true → ∃ op : Operator, t.lexeme = op.symbol.toString

theorem Token.Legible.of_kind {t : Token} (h : t.kind ∈ [.openParen, .closeParen, .sqrt]) :
    t.Legible := by
  constructor <;> intro hk
  · simp [hk] at h
  · cases ht : t.kind <;> simp_all [Token.Kind.isOperator]

namespace Grammar

inductive Bracket where
  | paren
  | sqrt

namespace Bracket

inductive Opens : Bracket → List Token → Prop
  | paren : o.kind = .openParen → Opens .paren [o]
  | sqrt : r.kind = .sqrt → o.kind = .openParen → Opens .sqrt [r, o]

def wrap : Bracket → Expr → Expr
  | paren, e => e
  | sqrt, e => .sqrt e

end Bracket

/-- `Chain level left kind right`: the production of this level is
`left (kind right)?`. -/
inductive Chain : Level → Level → Token.Kind → Level → Prop
  | power : Chain .power .group .powerOp .group
  | term : Chain .term .power .termOp .term
  | sum : Chain .sum .term .sumOp .sum

inductive Derivation : Level → Type
  | number (t : Token) (ht : t.kind = .number) : Derivation .group
  | bracket (b : Bracket) (opening : List Token) (ho : b.Opens opening)
      (body : Derivation .sum) (close : Token) (hc : close.kind = .closeParen) :
      Derivation .group
  | operand (rule : Chain level left kind right) (operand : Derivation left) : Derivation level
  | binary (rule : Chain level left kind right) (l : Derivation left) (op : Token)
      (hop : op.kind = kind) (r : Derivation right) : Derivation level

namespace Derivation

def tokens : Derivation level → List Token
  | number t _ => [t]
  | bracket _ opening _ body close _ => opening ++ body.tokens ++ [close]
  | operand _ d => d.tokens
  | binary _ l op _ r => l.tokens ++ op :: r.tokens

def nesting : Derivation level → Nat
  | number .. => 0
  | bracket _ _ _ body .. => 1 + body.nesting
  | operand _ d => d.nesting
  | binary _ l _ _ r => max l.nesting (1 + r.nesting)

/-- The tree of a derivation: numbers and operators by their lexemes, and
nothing for parentheses. -/
def Means : Derivation level → Expr → Prop
  | number t _, e => ∃ v : Int64, Numeral.Spells t.lexeme.toList v.toInt ∧ e = .num v
  | bracket b _ _ body .., e => ∃ a, body.Means a ∧ e = b.wrap a
  | operand _ d, e => d.Means e
  | binary _ l op _ r, e => ∃ a operator b, l.Means a ∧ op.lexeme = operator.symbol.toString ∧
      r.Means b ∧ e = .binary operator a b

def raise : (level : Level) → Derivation .group → Derivation level
  | .group, d => d
  | .power, d => .operand .power d
  | .term, d => .operand .term (.operand .power d)
  | .sum, d => .operand .sum (.operand .term (.operand .power d))

section Raise

variable {d : Derivation .group}

@[simp] theorem tokens_raise : (d.raise level).tokens = d.tokens := by
  cases level <;> rfl

@[simp] theorem nesting_raise : (d.raise level).nesting = d.nesting := by
  cases level <;> rfl

@[simp] theorem means_raise : (d.raise level).Means e ↔ d.Means e := by
  cases level <;> rfl

end Raise

end Derivation

def Level.operators : Level → List Token.Kind
  | .group => []
  | .power => [.powerOp]
  | .term => [.powerOp, .termOp]
  | .sum => [.powerOp, .termOp, .sumOp]

/-- No operator of this level or one that binds tighter comes first. -/
def Ends (level : Level) (rest : List Token) : Prop :=
  Stops (fun t => decide (t.kind ∈ level.operators)) rest

theorem Chain.ends_left (rule : Chain level left kind right) (h : Ends level rest) :
    Ends left rest := by
  intro t ht
  have := h t ht
  cases rule <;> simp_all [Level.operators]

theorem Chain.ends_right (rule : Chain level left kind right) (h : Ends level rest) :
    Ends right rest := by
  intro t ht
  have := h t ht
  cases rule <;> simp_all [Level.operators]

theorem Chain.ends_operator (rule : Chain level left kind right) (hop : op.kind = kind) :
    Ends left (op :: rest) := by
  intro t ht
  cases rule <;> simp_all [Level.operators]

theorem Chain.not_ends (rule : Chain level left kind right) (hop : op.kind = kind) :
    ¬ Ends level (op :: rest) := by
  intro h
  have := h op rfl
  cases rule <;> simp_all [Level.operators]

theorem Chain.stops (rule : Chain level left kind right) (h : Ends level rest) :
    Stops (fun t => decide (t.kind = kind)) rest := by
  intro t ht
  have := h t ht
  cases rule <;> simp_all [Level.operators]

theorem Chain.unique (rule : Chain level left kind right) (rule' : Chain level left' kind' right') :
    left = left' ∧ kind = kind' ∧ right = right' := by
  cases rule <;> cases rule' <;> exact ⟨rfl, rfl, rfl⟩

theorem ends_nil : Ends level [] := nofun

theorem ends_close (hc : close.kind = .closeParen) : Ends level (close :: rest) := by
  rintro t ⟨⟩
  cases level <;> simp [Level.operators, hc]

theorem Bracket.Opens.unique {b b' : Bracket} (ho : b.Opens opening) (ho' : b'.Opens opening')
    (h : opening ++ rest = opening' ++ rest') : b = b' ∧ opening = opening' ∧ rest = rest' := by
  cases ho <;> cases ho' <;> simp_all

theorem Bracket.Opens.length_pos {b : Bracket} (ho : b.Opens opening) : 0 < opening.length := by
  cases ho <;> simp

theorem Bracket.Opens.legible {b : Bracket} (ho : b.Opens opening) : ∀ t ∈ opening, t.Legible := by
  intro t ht
  apply Token.Legible.of_kind
  cases ho <;> grind

-- ---------------------------------------------------------------------------
-- Unambiguity
-- ---------------------------------------------------------------------------

namespace Derivation

theorem unique {d d' : Derivation level} (h : d.tokens ++ rest = d'.tokens ++ rest')
    (hr : Ends level rest) (hr' : Ends level rest') : d = d' ∧ rest = rest' := by
  induction d generalizing rest rest' with
  | number t ht =>
    cases d' with
    | number t' ht' => simpa [tokens] using h
    | bracket b opening ho body close hc => cases ho <;> grind [tokens]
    | operand rule => cases rule
    | binary rule => cases rule
  | bracket b opening ho body close hc ih =>
    cases d' with
    | number t' ht' => cases ho <;> grind [tokens]
    | bracket b' opening' ho' body' close' hc' =>
      simp only [tokens, List.append_assoc, List.singleton_append] at h
      obtain ⟨rfl, rfl, hbody⟩ := ho.unique ho' h
      obtain ⟨rfl, hclose⟩ := ih hbody (ends_close hc) (ends_close hc')
      simpa using hclose
    | operand rule => cases rule
    | binary rule => cases rule
  | operand rule d ih =>
    cases d' with
    | number => cases rule
    | bracket => cases rule
    | operand rule' d' =>
      obtain ⟨rfl, rfl, rfl⟩ := rule.unique rule'
      obtain ⟨rfl, hrest⟩ := ih h (rule.ends_left hr) (rule.ends_left hr')
      exact ⟨rfl, hrest⟩
    | binary rule' l op hop r =>
      obtain ⟨rfl, rfl, rfl⟩ := rule.unique rule'
      simp only [tokens, List.append_assoc, List.cons_append] at h
      obtain ⟨-, rfl⟩ := ih h (rule.ends_left hr) (rule.ends_operator hop)
      exact absurd hr (rule.not_ends hop)
  | binary rule l op hop r ihl ihr =>
    cases d' with
    | number => cases rule
    | bracket => cases rule
    | operand rule' d' =>
      obtain ⟨rfl, rfl, rfl⟩ := rule.unique rule'
      simp only [tokens, List.append_assoc, List.cons_append] at h
      obtain ⟨-, rfl⟩ := ihl h (rule.ends_operator hop) (rule.ends_left hr')
      exact absurd hr' (rule.not_ends hop)
    | binary rule' l' op' hop' r' =>
      obtain ⟨rfl, rfl, rfl⟩ := rule.unique rule'
      simp only [tokens, List.append_assoc, List.cons_append] at h
      obtain ⟨rfl, hright⟩ := ihl h (rule.ends_operator hop) (rule.ends_operator hop')
      obtain ⟨rfl, htail⟩ := List.cons.inj hright
      obtain ⟨rfl, hrest⟩ := ihr htail (rule.ends_right hr) (rule.ends_right hr')
      exact ⟨rfl, hrest⟩

theorem Means.legible {d : Derivation level} (h : d.Means e) : ∀ t ∈ d.tokens, t.Legible := by
  induction d generalizing e with
  | number t ht =>
    obtain ⟨v, hv, -⟩ := h
    intro u hu
    rw [List.mem_singleton.mp hu]
    exact ⟨fun _ => ⟨v, hv⟩, fun ho => by simp [Token.Kind.isOperator, ht] at ho⟩
  | bracket b opening ho body close hc ih =>
    obtain ⟨a, ha, -⟩ := h
    intro u hu
    simp only [tokens, List.mem_append, List.mem_singleton] at hu
    rcases hu with (hu | hu) | rfl
    · exact ho.legible u hu
    · exact ih ha u hu
    · exact .of_kind (by simp [hc])
  | operand rule d ih => exact ih h
  | binary rule l op hop r ihl ihr =>
    obtain ⟨a, operator, b, ha, hop', hb, -⟩ := h
    intro u hu
    simp only [tokens, List.mem_append, List.mem_cons] at hu
    rcases hu with hu | rfl | hu
    · exact ihl ha u hu
    · exact ⟨fun hn => by cases rule <;> simp [hn] at hop, fun _ => ⟨operator, hop'⟩⟩
    · exact ihr hb u hu

end Derivation

end Grammar

end Abacus
