import Abacus.Token.Stream
import Abacus.Proofs.Cursor.PatternLaws
import Abacus.Proofs.NumeralLaws

/-!
# Lexemes

What a token of each kind can look like (`Token.Kind.Lexeme`), apart from the
patterns and their order. The rules find the one lexeme at the front of a text,
the longest if it is a number.
-/

namespace Abacus

namespace Token

def Kind.Lexeme : Kind → List Char → Prop
  | .number, lexeme => Numeral.IsDigits lexeme
  | .sumOp, lexeme => ∃ c ∈ ['+', '-'], lexeme = [c]
  | .termOp, lexeme => ∃ c ∈ ['*', '/', '%'], lexeme = [c]
  | .powerOp, lexeme => lexeme = ['^']
  | .openParen, lexeme => lexeme = ['(']
  | .closeParen, lexeme => lexeme = [')']
  | .sqrt, lexeme => lexeme = ['s', 'q', 'r', 't']

/-- A number takes all the digits there are. -/
def Kind.Ends (kind : Kind) (rest : List Char) : Prop :=
  kind = .number → Stops (· ∈ Text.digits) rest

section

variable {kind : Kind} {lexeme rest text : List Char}

theorem Kind.Lexeme.ne_nil (h : kind.Lexeme lexeme) : lexeme ≠ [] := by
  rintro rfl
  cases kind <;> simp [Kind.Lexeme, Numeral.IsDigits] at h

/-- The characters that lexemes are made of. -/
def alphabet : List Char :=
  Text.digits ++ ['+', '-', '*', '/', '%', '^', '(', ')', 's', 'q', 'r', 't']

theorem Kind.Lexeme.subset (h : kind.Lexeme lexeme) : lexeme ⊆ alphabet := by
  cases kind with
  | number => exact fun c hc => List.mem_append_left _ (h.2 c hc)
  | sumOp | termOp =>
    obtain ⟨c, hc, rfl⟩ := h
    simp only [List.mem_cons, List.not_mem_nil, or_false] at hc
    rcases hc with rfl | rfl | rfl <;> simp [alphabet]
  | _ =>
    cases h
    simp [alphabet]

theorem Kind.Lexeme.no_blank (h : kind.Lexeme lexeme) : ∀ c ∈ lexeme, c ∉ Text.blanks := by
  have hsolid : ∀ c ∈ alphabet, c ∉ Text.blanks := by simp [alphabet, Text.digits, Text.blanks]
  exact fun c hc => hsolid c (h.subset hc)

theorem Kind.Lexeme.ascii (h : kind.Lexeme lexeme) : ∀ c ∈ lexeme, c.toNat < 0x80 := by
  have hascii : ∀ c ∈ alphabet, c.toNat < 0x80 := by simp [alphabet, Text.digits]
  exact fun c hc => hascii c (h.subset hc)

theorem Kind.Lexeme.stops (h : kind.Lexeme lexeme) (hk : kind ≠ .number) :
    Stops (· ∈ Text.digits) (lexeme ++ rest) := by
  cases kind with
  | number => contradiction
  | sumOp | termOp =>
    obtain ⟨c, hc, rfl⟩ := h
    simp only [List.mem_cons, List.not_mem_nil, or_false] at hc
    rcases hc with rfl | rfl | rfl <;> exact stops_cons (by decide)
  | _ =>
    cases h
    exact stops_cons (by decide)

theorem Kind.Lexeme.not_stops (h : Kind.Lexeme .number lexeme) :
    ¬ Stops (· ∈ Text.digits) (lexeme ++ rest) := by
  obtain ⟨c, lexeme, rfl⟩ := List.exists_cons_of_ne_nil h.1
  intro hs
  exact absurd (h.2 c (by simp)) (by simpa using hs c rfl)

theorem exists_longest (h : Kind.Lexeme .number lexeme) (rest : List Char) :
    ∃ found left, (Kind.Lexeme .number found ∧ found ++ left = lexeme ++ rest) ∧
      Kind.number.Ends left := by
  obtain ⟨more, left, rfl, hm, hstop⟩ := exists_run (· ∈ Text.digits) rest
  refine ⟨lexeme ++ more, left, ⟨⟨by simp [h.1], ?_⟩, List.append_assoc ..⟩, fun _ => hstop⟩
  intro c hc
  rcases List.mem_append.mp hc with hc | hc
  · exact h.2 c hc
  · simpa using hm c hc

/-- The token at the front of a text by the first rule that matches, and what
follows it. -/
def front? (rules : List (Pattern × Kind)) (text : List Char) : Option (Token × List Char) :=
  rules.findSome? fun (pattern, kind) =>
    (pattern.split? text).map fun (lexeme, rest) => (⟨kind, String.ofList lexeme⟩, rest)

theorem front?_of_lexeme (h : kind.Lexeme lexeme) (hr : kind.Ends rest) :
    front? rules (lexeme ++ rest) = some (⟨kind, String.ofList lexeme⟩, rest) := by
  cases kind with
  | number =>
    have hrun := run?_eq_some_iff.mpr ⟨rfl, h.1, by simpa using h.2, hr rfl⟩
    simp [front?, rules, Pattern.split?, hrun]
  | sumOp | termOp =>
    have hstop : Stops (· ∈ Text.digits) (lexeme ++ rest) := h.stops (by simp)
    have hrun := run?_eq_none_iff.mpr hstop
    obtain ⟨c, hc, rfl⟩ := h
    simp only [List.mem_cons, List.not_mem_nil, or_false] at hc
    rcases hc with rfl | rfl | rfl <;> simp_all [front?, rules, Pattern.split?]
  | _ =>
    have hstop : Stops (· ∈ Text.digits) (lexeme ++ rest) := h.stops (by simp)
    have hrun := run?_eq_none_iff.mpr hstop
    cases h
    simp_all [front?, rules, Pattern.split?]

theorem lexeme_of_rule {pattern : Pattern} (hrule : (pattern, kind) ∈ rules)
    (h : pattern.split? text = some (lexeme, rest)) :
    kind.Lexeme lexeme ∧ text = lexeme ++ rest ∧ kind.Ends rest := by
  simp only [rules, List.mem_cons, Prod.mk.injEq, List.not_mem_nil, or_false] at hrule
  rcases hrule with ⟨rfl, rfl⟩ | hrule
  · obtain ⟨htext, hne, hd, hr⟩ := run?_eq_some_iff.mp h
    exact ⟨⟨hne, by simpa using hd⟩, htext, fun _ => hr⟩
  rcases hrule with ⟨rfl, rfl⟩ | ⟨rfl, rfl⟩ | ⟨rfl, rfl⟩ | ⟨rfl, rfl⟩ | ⟨rfl, rfl⟩ | ⟨rfl, rfl⟩
  · obtain ⟨c, hc, hl, htext⟩ := Pattern.split?_oneOf_eq_some_iff.mp h
    exact ⟨⟨c, hc, hl⟩, htext, nofun⟩
  · obtain ⟨c, hc, hl, htext⟩ := Pattern.split?_oneOf_eq_some_iff.mp h
    exact ⟨⟨c, hc, hl⟩, htext, nofun⟩
  · obtain ⟨c, hc, hl, htext⟩ := Pattern.split?_oneOf_eq_some_iff.mp h
    exact ⟨by simp_all [Kind.Lexeme], htext, nofun⟩
  · obtain ⟨c, hc, hl, htext⟩ := Pattern.split?_oneOf_eq_some_iff.mp h
    exact ⟨by simp_all [Kind.Lexeme], htext, nofun⟩
  · obtain ⟨c, hc, hl, htext⟩ := Pattern.split?_oneOf_eq_some_iff.mp h
    exact ⟨by simp_all [Kind.Lexeme], htext, nofun⟩
  · obtain ⟨hl, htext⟩ := Pattern.split?_word_eq_some_iff.mp h
    exact ⟨hl, htext, nofun⟩

theorem front?_eq_some_iff :
    front? rules text = some (t, rest) ↔
      t.kind.Lexeme t.lexeme.toList ∧ text = t.lexeme.toList ++ rest ∧ t.kind.Ends rest := by
  constructor
  · intro h
    obtain ⟨⟨pattern, kind⟩, hrule, h⟩ := List.exists_of_findSome?_eq_some h
    obtain ⟨⟨lexeme, _⟩, hs, ⟨⟩⟩ := Option.map_eq_some_iff.mp h
    rw [String.toList_ofList]
    exact lexeme_of_rule hrule hs
  · rintro ⟨hl, rfl, hr⟩
    rw [front?_of_lexeme hl hr, String.ofList_toList]

theorem front?_eq_none_iff :
    front? rules text = none ↔ ∀ (kind : Kind) (lexeme : List Char), kind.Lexeme lexeme →
      ¬ lexeme <+: text := by
  constructor
  · rintro h kind lexeme hl ⟨rest, rfl⟩
    by_cases hk : kind = .number
    · -- Digits may go on behind the number, and the first rule takes them all.
      subst hk
      obtain ⟨found, left, hfound, hends⟩ := exists_longest hl rest
      rw [← hfound.2, front?_of_lexeme hfound.1 hends] at h
      cases h
    · rw [front?_of_lexeme hl (absurd · hk)] at h
      cases h
  · intro h
    cases hf : front? rules text with
    | none => rfl
    | some found =>
      obtain ⟨hl, htext, -⟩ := front?_eq_some_iff.mp hf
      exact absurd ⟨_, htext.symm⟩ (h _ _ hl)

variable {before : List Char} {c : Cursor Char} {trials : List (Pattern × Kind)}

theorem scan_hit (h : c.At before [] text) (hf : front? trials text = some (t, rest)) :
    ∃ d, scan trials c = (some t, d) ∧ d.At (before ++ t.lexeme.toList) [] rest := by
  induction trials generalizing c with
  | nil => cases hf
  | cons trial trials ih =>
    obtain ⟨pattern, kind⟩ := trial
    cases hs : pattern.split? text with
    | none =>
      obtain ⟨d, hd, hat⟩ := h.scan_miss hs
      obtain ⟨e, he, hat⟩ := ih hat (by simpa [front?, hs] using hf)
      exact ⟨e, by simp [scan, hd, he], hat⟩
    | some found =>
      obtain ⟨lexeme, left⟩ := found
      obtain ⟨d, hd, hat⟩ := h.scan_hit hs
      obtain ⟨rfl, rfl⟩ : ⟨kind, String.ofList lexeme⟩ = t ∧ left = rest := by
        simpa [front?, hs] using hf
      exact ⟨d, by simp [scan, hd], by simpa using hat⟩

theorem scan_miss (h : c.At before [] text) (hf : front? trials text = none) :
    ∃ d, scan trials c = (none, d) ∧ d.At before [] text := by
  induction trials generalizing c with
  | nil => exact ⟨c, rfl, h⟩
  | cons trial trials ih =>
    obtain ⟨pattern, kind⟩ := trial
    cases hs : pattern.split? text with
    | none =>
      obtain ⟨d, hd, hat⟩ := h.scan_miss hs
      obtain ⟨e, he, hat⟩ := ih hat (by simpa [front?, hs] using hf)
      exact ⟨e, by simp [scan, hd, he], hat⟩
    | some found => simp [front?, hs] at hf

end

end Token

end Abacus
