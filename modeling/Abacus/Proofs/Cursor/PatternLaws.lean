import Abacus.Cursor.Pattern
import Abacus.Proofs.Cursor.Laws

/-!
# Pattern laws

`Pattern.split?` is what a pattern means on a text alone, and `scan` at the cursor
finds exactly that (`At.scan_hit`, `At.scan_miss`).
-/

namespace Abacus

/-- The longest nonempty run at the front of a list and what follows it. -/
def run? (p : α → Bool) (items : List α) : Option (List α × List α) :=
  if items.takeWhile p = [] then none else some (items.takeWhile p, items.dropWhile p)

/-- No item of this kind comes first. -/
def Stops (p : α → Bool) (items : List α) : Prop := ∀ x, items.head? = some x → p x = false

theorem stops_dropWhile (p : α → Bool) (items : List α) : Stops p (items.dropWhile p) := by
  intro x hx
  have := List.head?_dropWhile_not p items
  simp_all

theorem stops_cons (h : p x = false) : Stops p (x :: rest) := by
  rintro _ ⟨⟩
  exact h

theorem Stops.congr (h : Stops p items) (hh : items'.head? = items.head?) : Stops p items' :=
  fun x hx => h x (hh ▸ hx)

theorem Stops.append (h : Stops p items) (h' : Stops p rest) : Stops p (items ++ rest) := by
  cases items with
  | nil => exact h'
  | cons x items => exact fun y hy => h y hy

theorem Stops.of_append (h : Stops p (items ++ rest)) : Stops p items := by
  cases items with
  | nil => exact nofun
  | cons x items => exact fun y hy => h y hy

theorem Stops.takeWhile_eq_nil (h : Stops p items) : items.takeWhile p = [] := by
  cases items with
  | nil => rfl
  | cons x items => simp [h x rfl]

theorem Stops.dropWhile_eq (h : Stops p items) : items.dropWhile p = items := by
  cases items with
  | nil => rfl
  | cons x items => simp [h x rfl]

theorem exists_of_not_stops (h : ¬ Stops p items) : ∃ x rest, items = x :: rest ∧ p x = true := by
  cases items with
  | nil => exact absurd (by simp [Stops]) h
  | cons x items => exact ⟨x, items, rfl, by simpa [Stops] using h⟩

theorem takeWhile_append (hf : ∀ x ∈ found, p x = true) (hr : Stops p rest) :
    (found ++ rest).takeWhile p = found ∧ (found ++ rest).dropWhile p = rest := by
  rw [List.takeWhile_append_of_pos hf, List.dropWhile_append_of_pos hf, hr.takeWhile_eq_nil,
    hr.dropWhile_eq, List.append_nil]
  exact ⟨rfl, rfl⟩

theorem exists_run (p : α → Bool) (items : List α) :
    ∃ found rest, found ++ rest = items ∧ (∀ x ∈ found, p x = true) ∧ Stops p rest :=
  ⟨items.takeWhile p, items.dropWhile p, List.takeWhile_append_dropWhile,
    List.all_eq_true.mp List.all_takeWhile, stops_dropWhile p items⟩

theorem run?_eq_some_iff :
    run? p items = some (found, rest) ↔
      items = found ++ rest ∧ found ≠ [] ∧ (∀ x ∈ found, p x = true) ∧ Stops p rest := by
  unfold run?
  constructor
  · intro h
    split at h
    · cases h
    · next hne =>
      cases h
      exact ⟨List.takeWhile_append_dropWhile.symm, hne, List.all_eq_true.mp List.all_takeWhile,
        stops_dropWhile p items⟩
  · rintro ⟨rfl, hne, hf, hr⟩
    obtain ⟨ht, hd⟩ := takeWhile_append hf hr
    simp [ht, hd, hne]

theorem run?_eq_none_iff : run? p items = none ↔ Stops p items := by
  unfold run? Stops
  cases items with
  | nil => simp
  | cons x items => cases hx : p x <;> simp [hx]

/-- The longest match at the front of a text and what follows it. -/
def Pattern.split? : Pattern → List Char → Option (List Char × List Char)
  | .digits, text => run? (· ∈ Text.digits) text
  | .oneOf _, [] => none
  | .oneOf set, c :: rest => if c ∈ set then some ([c], rest) else none
  | .word chars, text => if chars <+: text then some (chars, text.drop chars.length) else none
  | .solid, text => run? (· ∉ Text.blanks) text

namespace Pattern

variable {set chars text lexeme rest : List Char}

theorem split?_oneOf_eq_some_iff :
    (oneOf set).split? text = some (lexeme, rest) ↔
      ∃ c ∈ set, lexeme = [c] ∧ text = lexeme ++ rest := by
  cases text with
  | nil =>
    constructor
    · exact nofun
    · rintro ⟨c, -, rfl, ⟨⟩⟩
  | cons c text =>
    simp only [split?, Option.ite_none_right_eq_some, Option.some.injEq, Prod.mk.injEq]
    constructor
    · rintro ⟨hc, rfl, rfl⟩
      exact ⟨c, hc, rfl, rfl⟩
    · rintro ⟨c, hc, rfl, ⟨⟩⟩
      exact ⟨hc, rfl, rfl⟩

theorem split?_oneOf_eq_none_iff : (oneOf set).split? text = none ↔ Stops (· ∈ set) text := by
  cases text <;> simp [split?, Stops]

theorem split?_word_eq_some_iff :
    (word chars).split? text = some (lexeme, rest) ↔ lexeme = chars ∧ text = lexeme ++ rest := by
  simp only [split?, Option.ite_none_right_eq_some, Option.some.injEq, Prod.mk.injEq]
  constructor
  · rintro ⟨⟨tail, rfl⟩, rfl, rfl⟩
    simp
  · rintro ⟨rfl, rfl⟩
    simp

theorem append_of_split? {pattern : Pattern} (h : pattern.split? text = some (lexeme, rest)) :
    lexeme ++ rest = text := by
  cases pattern with
  | digits | solid => exact (run?_eq_some_iff.mp h).1.symm
  | oneOf set =>
    obtain ⟨c, -, -, htext⟩ := split?_oneOf_eq_some_iff.mp h
    exact htext.symm
  | word chars => exact (split?_word_eq_some_iff.mp h).2.symm

end Pattern

namespace Cursor

variable {before view rest text lexeme : List Char} {c : Cursor Char} {pattern : Pattern}

theorem At.skipRun_hit (h : c.At before view text) (hr : run? p text = some (lexeme, rest)) :
    ∃ d, c.skipRun p = (true, d) ∧ d.At before (view ++ lexeme) rest := by
  obtain ⟨rfl, hne, hf, hs⟩ := run?_eq_some_iff.mp hr
  have hat := h.skipWhile p
  obtain ⟨ht, hd⟩ := takeWhile_append hf hs
  rw [ht, hd] at hat
  exact ⟨_, by simp [h.skipRun, ht, hne], hat⟩

theorem At.skipRun_miss (h : c.At before view text) (hr : run? p text = none) :
    ∃ d, c.skipRun p = (false, d) ∧ d.At before view text := by
  have hs := run?_eq_none_iff.mp hr
  have hat := h.skipWhile p
  rw [hs.takeWhile_eq_nil, hs.dropWhile_eq, List.append_nil] at hat
  exact ⟨_, by simp [h.skipRun, hs.takeWhile_eq_nil], hat⟩

theorem At.advance_hit (h : c.At before view text) (hs : pattern.split? text = some (lexeme, rest)) :
    ∃ d, c.advance pattern = (true, d) ∧ d.At before (view ++ lexeme) rest := by
  cases pattern with
  | digits => exact h.skipRun_hit hs
  | solid => exact h.skipRun_hit hs
  | oneOf set =>
    obtain ⟨x, hx, rfl, rfl⟩ := Pattern.split?_oneOf_eq_some_iff.mp hs
    obtain ⟨d, hd, hat⟩ := h.acceptIf_hit (p := (· ∈ set)) (by simpa using hx)
    exact ⟨d, by simp [advance, acceptAny, hd], hat⟩
  | word chars =>
    obtain ⟨rfl, rfl⟩ := Pattern.split?_word_eq_some_iff.mp hs
    exact h.acceptWord_hit

theorem At.advance_miss (h : c.At before view text) (hs : pattern.split? text = none) :
    ∃ d, c.advance pattern = (false, d) ∧ d.At before view text := by
  cases pattern with
  | digits => exact h.skipRun_miss hs
  | solid => exact h.skipRun_miss hs
  | oneOf set =>
    obtain ⟨d, hd, hat⟩ := h.acceptIf_miss (Pattern.split?_oneOf_eq_none_iff.mp hs)
    exact ⟨d, by simp [advance, acceptAny, hd], hat⟩
  | word chars =>
    refine h.acceptWord_miss fun hw => ?_
    simp [Pattern.split?, hw] at hs

theorem At.scan_hit (h : c.At before view text) (hs : pattern.split? text = some (lexeme, rest)) :
    ∃ d, c.scan pattern = (some (view ++ lexeme), d) ∧
      d.At (before ++ (view ++ lexeme)) [] rest := by
  obtain ⟨d, hd, hat⟩ := h.advance_hit hs
  exact ⟨d.discard, by simp [scan, hd, hat.cut], hat.discard⟩

theorem At.scan_miss (h : c.At before view text) (hs : pattern.split? text = none) :
    ∃ d, c.scan pattern = (none, d) ∧ d.At before view text := by
  obtain ⟨d, hd, hat⟩ := h.advance_miss hs
  exact ⟨d, by simp [scan, hd], hat⟩

theorem At.skipBlanks (h : c.At before view text) :
    c.skipBlanks.2.At (before ++ (view ++ text.takeWhile (· ∈ Text.blanks))) []
      (text.dropWhile (· ∈ Text.blanks)) := by
  have hd := (h.skipWhile (· ∈ Text.blanks)).discard
  rwa [Cursor.skipBlanks, skipAll, h.skipRun]

end Cursor

end Abacus
