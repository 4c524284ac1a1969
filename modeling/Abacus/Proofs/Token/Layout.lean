import Mathlib.Data.List.Chain
import Abacus.Proofs.Token.StreamLaws

/-!
# The lexical language

A text has tokens if it can be laid out as blanks and lexemes in turn, with a
blank at least between two numbers. Where it cannot, a front part of it can.
-/

namespace Abacus

namespace Token

/-- Blanks, and then tokens each with the blanks behind it. Only two numbers
need a blank between them. -/
structure Layout where
  lead : List Char
  pieces : List (Token × List Char)
  lead_blank : Text.IsBlank lead
  gap_blank : ∀ piece ∈ pieces, Text.IsBlank piece.2
  lexeme : ∀ piece ∈ pieces, piece.1.kind.Lexeme piece.1.lexeme.toList
  apart : pieces.IsChain fun piece next =>
    piece.1.kind = .number → next.1.kind = .number → piece.2 ≠ []

namespace Layout

def chars (l : Layout) : List Char :=
  l.lead ++ l.pieces.flatMap fun (t, gap) => t.lexeme.toList ++ gap

def tokens (l : Layout) : List Token := l.pieces.map Prod.fst

end Layout

/-- The text can be laid out as these tokens. -/
def Tokenizable (text : List Char) (tokens : List Token) : Prop :=
  ∃ l : Layout, l.chars = text ∧ l.tokens = tokens

/-- The run is the first that cannot be laid out: everything before it can, and
it goes up to a blank or to the end. -/
def Blocked (text run : List Char) : Prop :=
  ∃ front rest, text = front ++ run ++ rest ∧ (∃ tokens, Tokenizable front tokens) ∧
    Unrecognizable run ∧ ∀ c, rest.head? = some c → c ∈ Text.blanks

variable {text rest run : List Char} {tokens : List Token}

theorem Layout.ends {t : Token} {gap : List Char} {pieces : List (Token × List Char)}
    (hg : Text.IsBlank gap) (hl : ∀ piece ∈ pieces, piece.1.kind.Lexeme piece.1.lexeme.toList)
    (ha : ∀ next ∈ pieces.head?, t.kind = .number → next.1.kind = .number → gap ≠ []) :
    t.kind.Ends (gap ++ pieces.flatMap fun (t, gap) => t.lexeme.toList ++ gap) := by
  intro hk
  cases gap with
  | cons c gap =>
    have hd : ∀ c ∈ Text.blanks, c ∉ Text.digits := by simp [Text.blanks, Text.digits]
    rintro _ ⟨⟩
    simpa using hd c (hg c (by simp))
  | nil =>
    cases pieces with
    | nil => simp [Stops]
    | cons next pieces =>
      have hnext : next.1.kind ≠ .number := fun hn => ha next rfl hk hn rfl
      simpa using (hl next (by simp)).stops hnext

theorem tokenizes_layout (l : Layout) : Tokenizes l.chars (.ok l.tokens) := by
  obtain ⟨lead, pieces, hlead, hgap, hlexeme, hapart⟩ := l
  induction pieces generalizing lead with
  | nil => simpa [Layout.chars, Layout.tokens] using Tokenizes.done hlead
  | cons piece pieces ih =>
    obtain ⟨t, gap⟩ := piece
    obtain ⟨hl, hls⟩ := List.forall_mem_cons.mp hlexeme
    obtain ⟨hg, hgs⟩ := List.forall_mem_cons.mp hgap
    obtain ⟨ha, has⟩ := List.isChain_cons.mp hapart
    have h := Tokenizes.token hlead hl (Layout.ends hg hls ha) (ih gap hg hgs hls has)
    simpa [Layout.chars, Layout.tokens, Except.map] using h

theorem tokenizable_of_tokenizes (h : Tokenizes text (.ok tokens)) : Tokenizable text tokens := by
  generalize ha : (.ok tokens : Except LexicalError (List Token)) = answer at h
  induction h generalizing tokens with
  | @done gap hg =>
    cases ha
    exact ⟨⟨gap, [], hg, by simp, by simp, .nil⟩, by simp [Layout.chars], rfl⟩
  | @token gap rest read t hg hl hr _ ih =>
    cases read with
    | error e => cases ha
    | ok read =>
      cases ha
      obtain ⟨⟨lead, pieces, hlead, hgap, hlexeme, hapart⟩, rfl, rfl⟩ := ih rfl
      refine ⟨⟨gap, (t, lead) :: pieces, hg, List.forall_mem_cons.mpr ⟨hlead, hgap⟩,
        List.forall_mem_cons.mpr ⟨hl, hlexeme⟩, List.isChain_cons.mpr ⟨?_, hapart⟩⟩,
        by simp [Layout.chars], rfl⟩
      rintro next hnext ht hn rfl
      obtain ⟨tail, rfl⟩ := List.head?_eq_some_iff.mp hnext
      have hnumber : Kind.number.Lexeme next.1.lexeme.toList := hn ▸ hlexeme next (by simp)
      exact hnumber.not_stops (by simpa [Layout.chars] using hr ht)
  | unrecognized => cases ha

theorem tokenizable_iff : Tokenizable text tokens ↔ Tokenizes text (.ok tokens) := by
  constructor
  · rintro ⟨l, rfl, rfl⟩
    exact tokenizes_layout l
  · exact tokenizable_of_tokenizes

theorem blocked_iff : Blocked text run ↔
    Tokenizes text (.error (.unrecognized (String.ofList run))) := by
  simp only [Blocked, tokenizable_iff]
  constructor
  · rintro ⟨front, rest, rfl, ⟨tokens, h⟩, hu, hr⟩
    have hrun : Tokenizes ([] ++ (run ++ rest)) (.error (.unrecognized (String.ofList run))) :=
      .unrecognized nofun hu (by simpa [Stops] using hr)
    rw [List.append_assoc]
    exact h.append hrun hu.stops
  · intro h
    generalize ha : (.error (.unrecognized (String.ofList run)) :
      Except LexicalError (List Token)) = answer at h
    induction h with
    | done => cases ha
    | @token gap left read t hg hl ht _ ih =>
      cases read with
      | ok read => cases ha
      | error e =>
        obtain ⟨front, rest, rfl, ⟨tokens, h⟩, hu, hr⟩ := ih ha
        rw [List.append_assoc] at ht
        exact ⟨gap ++ (t.lexeme.toList ++ front), rest, by simp,
          ⟨t :: tokens, .token hg hl (fun hk => (ht hk).of_append) h⟩, hu, hr⟩
    | @unrecognized gap found rest hg hu hr =>
      obtain rfl : run = found := String.ofList_injective (by simpa using ha)
      exact ⟨gap, rest, by simp, ⟨[], .done hg⟩, hu, by simpa [Stops] using hr⟩

/-- The tokens of a text are the tokens of its layout, and where it has none
the error is the first run that cannot be laid out. Exactly one of the two
there is, and it is the only one of its kind. -/
theorem ofText_exact (text : String) :
    (∀ tokens, ofText text = .ok tokens ↔ Tokenizable text.toList tokens) ∧
    (∀ run, ofText text = .error (.unrecognized run) ↔ Blocked text.toList run.toList) ∧
    ((∃! tokens, Tokenizable text.toList tokens) ∧ (∀ run, ¬ Blocked text.toList run) ∨
      (∀ tokens, ¬ Tokenizable text.toList tokens) ∧ ∃! run, Blocked text.toList run) := by
  simp only [blocked_iff, tokenizable_iff, ← ofText_eq_iff, String.ofList_toList]
  refine ⟨by simp, by simp, ?_⟩
  cases ofText text with
  | ok tokens => exact .inl ⟨⟨tokens, rfl, fun _ h => (Except.ok.inj h).symm⟩, fun _ => nofun⟩
  | error e =>
    obtain ⟨run⟩ := e
    refine .inr ⟨fun _ => nofun, run.toList, by simp, fun found h => ?_⟩
    obtain rfl : run = String.ofList found := by simpa using h
    simp

end Token

end Abacus
