import Abacus.Proofs.Grammar.Derivation

/-!
# Sentences and their beginnings

Whether tokens can be an expression, or the beginning of one, is a matter of
their kinds alone (`Viable`). `Begun` says the same of tokens and of any level,
and can be followed through the productions (`viable_iff`).
-/

namespace Abacus.Grammar

def Sentence (kinds : List Token.Kind) : Prop :=
  ∃ d : Derivation .sum, d.tokens.map Token.kind = kinds

/-- Some sentence begins with these kinds. -/
def Viable (kinds : List Token.Kind) : Prop := ∃ more, Sentence (kinds ++ more)

def Begun (level : Level) (tokens : List Token) : Prop :=
  ∃ (d : Derivation level) (more : List Token), d.tokens = tokens ++ more

theorem Bracket.Opens.of_kinds {b : Bracket} (ho : b.Opens opening)
    (h : opening'.map Token.kind = opening.map Token.kind) : b.Opens opening' := by
  cases ho with
  | paren ho =>
    obtain ⟨o', rfl, ho'⟩ := List.map_eq_singleton_iff.mp h
    exact .paren (ho'.trans ho)
  | sqrt hr ho =>
    obtain ⟨r', tail, rfl, hr', htail⟩ := List.map_eq_cons_iff.mp h
    obtain ⟨o', rfl, ho'⟩ := List.map_eq_singleton_iff.mp htail
    exact .sqrt (hr'.trans hr) (ho'.trans ho)

theorem Derivation.exists_of_kinds (d : Derivation level)
    (h : given.map Token.kind = d.tokens.map Token.kind) :
    ∃ d' : Derivation level, d'.tokens = given := by
  induction d generalizing given with
  | number t ht =>
    obtain ⟨t', rfl, ht'⟩ := List.map_eq_singleton_iff.mp h
    exact ⟨.number t' (ht'.trans ht), rfl⟩
  | bracket b opening ho body close hc ih =>
    simp only [Derivation.tokens, List.map_append] at h
    obtain ⟨front, last, rfl, hfront, hlast⟩ := List.map_eq_append_iff.mp h
    obtain ⟨opening', inner, rfl, hopening, hinner⟩ := List.map_eq_append_iff.mp hfront
    obtain ⟨close', rfl, hclose⟩ := List.map_eq_singleton_iff.mp hlast
    obtain ⟨body', rfl⟩ := ih hinner
    exact ⟨.bracket b opening' (ho.of_kinds hopening) body' close' (hclose.trans hc), rfl⟩
  | operand rule d ih =>
    obtain ⟨d', rfl⟩ := ih h
    exact ⟨.operand rule d', rfl⟩
  | binary rule l op hop r ihl ihr =>
    simp only [Derivation.tokens, List.map_append] at h
    obtain ⟨left, tail, rfl, hleft, htail⟩ := List.map_eq_append_iff.mp h
    obtain ⟨op', right, rfl, hop', hright⟩ := List.map_eq_cons_iff.mp htail
    obtain ⟨l', rfl⟩ := ihl hleft
    obtain ⟨r', rfl⟩ := ihr hright
    exact ⟨.binary rule l' op' (hop'.trans hop) r', rfl⟩

theorem sentence_iff :
    Sentence (tokens.map Token.kind) ↔ ∃ d : Derivation .sum, d.tokens = tokens := by
  constructor
  · rintro ⟨d, hd⟩
    exact d.exists_of_kinds hd.symm
  · rintro ⟨d, rfl⟩
    exact ⟨d, rfl⟩

theorem viable_iff : Viable (tokens.map Token.kind) ↔ Begun .sum tokens := by
  constructor
  · rintro ⟨more, d, hd⟩
    have hkinds : (tokens ++ more.map fun kind => Token.mk kind "").map Token.kind =
        d.tokens.map Token.kind := by
      simp [hd, Function.comp_def]
    obtain ⟨d', hd'⟩ := d.exists_of_kinds hkinds
    exact ⟨d', _, hd'⟩
  · rintro ⟨d, more, hd⟩
    exact ⟨more.map Token.kind, d, by simp [hd]⟩

theorem Derivation.begun (d : Derivation level) : Begun level d.tokens :=
  ⟨d, [], (List.append_nil _).symm⟩

theorem begun_nil (level : Level) : Begun level [] :=
  ⟨(Derivation.number ⟨.number, "0"⟩ rfl).raise level, _, rfl⟩

theorem Begun.of_append (h : Begun level (tokens ++ more)) : Begun level tokens := by
  obtain ⟨d, rest, hd⟩ := h
  exact ⟨d, more ++ rest, by rw [hd, List.append_assoc]⟩

theorem Begun.operand (rule : Chain level left kind right) (h : Begun left tokens) :
    Begun level tokens := by
  obtain ⟨d, more, hd⟩ := h
  exact ⟨.operand rule d, more, hd⟩

theorem Begun.rightOperand (rule : Chain level left kind right) (l : Derivation left)
    (hop : op.kind = kind) (h : Begun right tokens) : Begun level (l.tokens ++ op :: tokens) := by
  obtain ⟨r, more, hr⟩ := h
  exact ⟨.binary rule l op hop r, more, by simp [Derivation.tokens, hr]⟩

theorem Begun.body {b : Bracket} (ho : b.Opens opening) (h : Begun .sum tokens) :
    Begun .group (opening ++ tokens) := by
  obtain ⟨d, more, hd⟩ := h
  exact ⟨.bracket b opening ho d ⟨.closeParen, ")"⟩ rfl, more ++ [⟨.closeParen, ")"⟩], by
    simp [Derivation.tokens, hd]⟩

theorem begun_opening {b : Bracket} (ho : b.Opens opening) : Begun .group opening := by
  have h := (begun_nil .sum).body ho
  rwa [List.append_nil] at h

theorem begun_radical (ht : t.kind = .sqrt) : Begun .group [t] := by
  have ho : Bracket.sqrt.Opens ([t] ++ [⟨.openParen, "("⟩]) := .sqrt ht rfl
  exact (begun_opening ho).of_append

/-- The nearest parenthesis open behind these tokens, which are given from the
last to the first, if so many of those passed are closed again. -/
def openBehind : Nat → List Token → Option Bracket
  | _, [] => none
  | closed, t :: before =>
    match t.kind, closed with
    | .closeParen, closed => openBehind (closed + 1) before
    | .openParen, closed + 1 => openBehind closed before
    | .openParen, 0 => some (if before.head?.map Token.kind = some .sqrt then .sqrt else .paren)
    | _, closed => openBehind closed before

/-- The innermost parenthesis not closed yet, by whether a square root stands before it. -/
def innermost? (tokens : List Token) : Option Bracket := openBehind 0 tokens.reverse

theorem openBehind_close (hc : t.kind = .closeParen) :
    openBehind closed (t :: before) = openBehind (closed + 1) before := by
  simp [openBehind, hc]

theorem openBehind_other (h : t.kind ∉ [.openParen, .closeParen]) :
    openBehind closed (t :: before) = openBehind closed before := by
  cases hk : t.kind <;> simp_all [openBehind]

theorem openBehind_closed {b : Bracket} (ho : b.Opens opening) :
    openBehind (closed + 1) (opening.reverse ++ before) = openBehind closed before := by
  cases ho with
  | paren ho => simp [openBehind, ho]
  | sqrt hr ho => simp [openBehind, hr, ho]

theorem openBehind_open {b : Bracket} {before : List Token} (ho : b.Opens opening)
    (hb : before.getLast?.map Token.kind ≠ some .sqrt) :
    openBehind 0 (opening.reverse ++ before.reverse) = some b := by
  cases ho with
  | paren ho => simpa [openBehind, ho] using hb
  | sqrt hr ho => simp [openBehind, hr, ho]

theorem Derivation.openBehind_tokens (d : Derivation level) :
    openBehind closed (d.tokens.reverse ++ before) = openBehind closed before := by
  induction d generalizing closed before with
  | number t ht => exact openBehind_other (by simp [ht])
  | bracket b opening ho body close hc ih =>
    simp only [tokens, List.reverse_append, List.append_assoc, List.reverse_singleton,
      List.cons_append, List.nil_append]
    rw [openBehind_close hc, ih, openBehind_closed ho]
  | operand rule d ih => exact ih
  | binary rule l op hop r ihl ihr =>
    have hother : op.kind ∉ [Token.Kind.openParen, .closeParen] := by
      cases rule <;> simp [hop]
    simp only [tokens, List.reverse_append, List.reverse_cons, List.append_assoc,
      List.cons_append, List.nil_append]
    rw [ihr, openBehind_other hother, ihl]

theorem Derivation.innermost?_append (d : Derivation level) :
    innermost? (before ++ d.tokens) = innermost? before := by
  rw [innermost?, List.reverse_append, d.openBehind_tokens, innermost?]

theorem Bracket.Opens.innermost?_append {b : Bracket} {before : List Token} (ho : b.Opens opening)
    (hb : before.getLast?.map Token.kind ≠ some .sqrt) :
    innermost? (before ++ opening) = some b := by
  rw [innermost?, List.reverse_append, openBehind_open ho hb]

theorem Bracket.Opens.getLast? {b : Bracket} (ho : b.Opens opening) (before : List Token) :
    ∃ o, (before ++ opening).getLast? = some o ∧ o.kind = .openParen := by
  cases ho with
  | paren ho => exact ⟨_, by simp, ho⟩
  | sqrt hr ho => exact ⟨_, by simp, ho⟩

def EndsInOperand (tokens : List Token) : Prop :=
  ∃ before, ∃ d : Derivation .group, tokens = before ++ d.tokens

theorem EndsInOperand.append (h : EndsInOperand tokens) : EndsInOperand (front ++ tokens) := by
  obtain ⟨before, d, rfl⟩ := h
  exact ⟨front ++ before, d, (List.append_assoc ..).symm⟩

theorem Derivation.endsInOperand (d : Derivation level) : EndsInOperand d.tokens := by
  induction d with
  | number t ht => exact ⟨[], .number t ht, rfl⟩
  | bracket b opening ho body close hc => exact ⟨[], .bracket b opening ho body close hc, rfl⟩
  | operand rule d ih => exact ih
  | binary rule l op hop r _ ihr =>
    have h : EndsInOperand ((l.tokens ++ [op]) ++ r.tokens) := ihr.append
    simpa [tokens] using h

theorem EndsInOperand.getLast? (h : EndsInOperand tokens) :
    ∃ t, tokens.getLast? = some t ∧ t.kind ∈ [.number, .closeParen] := by
  obtain ⟨before, d, rfl⟩ := h
  cases d with
  | number t ht => exact ⟨t, by simp [Derivation.tokens], by simp [ht]⟩
  | bracket b opening ho body close hc =>
    exact ⟨close, by simp [Derivation.tokens], by simp [hc]⟩
  | operand rule => cases rule
  | binary rule => cases rule

end Abacus.Grammar
