import Abacus.Proofs.Cursor.Conservation

/-!
# Matches

Wherever a run of steps has led, the next pattern is found if the unread text
starts with it, as long as the pattern allows (`AllOrNothing`). Skipping goes over
the longest run and no further (`Skipped`).
-/

namespace Abacus

/-- The longest run of items of this kind at the front of a list. It is empty
where the first item is none of them. -/
structure LongestRun (p : α → Bool) (items run : List α) : Prop where
  front : run <+: items
  all : ∀ x ∈ run, p x = true
  longest : ∀ other, other <+: items → (∀ x ∈ other, p x = true) → other <+: run

theorem longestRun_takeWhile (p : α → Bool) (items : List α) :
    LongestRun p items (items.takeWhile p) where
  front := List.takeWhile_prefix p
  all := List.all_eq_true.mp List.all_takeWhile
  longest := by
    rintro other ⟨tail, rfl⟩ hall
    rw [List.takeWhile_append_of_pos hall]
    exact List.prefix_append ..

def Starts (p : α → Bool) (items : List α) : Prop := ∃ x, items.head? = some x ∧ p x = true

theorem not_starts_iff : ¬ Starts p items ↔ Stops p items := by
  simp [Starts, Stops]

theorem run?_of_starts (h : Starts p items) :
    run? p items = some (items.takeWhile p, items.dropWhile p) := by
  obtain ⟨x, hx, hp⟩ := h
  obtain ⟨tail, rfl⟩ := List.head?_eq_some_iff.mp hx
  simp [run?, hp]

namespace Pattern

/-- The text starts with a match. Any text starts with the empty word. -/
def Starts : Pattern → List Char → Prop
  | .digits, text => Abacus.Starts (· ∈ Text.digits) text
  | .oneOf set, text => Abacus.Starts (· ∈ set) text
  | .word chars, text => chars <+: text
  | .solid, text => Abacus.Starts (· ∉ Text.blanks) text

/-- What the match is in a text that starts with one. -/
def Matches : Pattern → List Char → List Char → Prop
  | .digits, text, found => LongestRun (· ∈ Text.digits) text found
  | .oneOf _, text, found => ∃ c, text.head? = some c ∧ found = [c]
  | .word chars, _, found => found = chars
  | .solid, text, found => LongestRun (· ∉ Text.blanks) text found

variable {pattern : Pattern} {text : List Char}

theorem split?_of_starts (h : pattern.Starts text) :
    ∃ found rest, pattern.split? text = some (found, rest) ∧ pattern.Matches text found := by
  cases pattern with
  | digits | solid => exact ⟨_, _, run?_of_starts h, longestRun_takeWhile _ _⟩
  | oneOf set =>
    obtain ⟨c, hc, hmem⟩ := h
    obtain ⟨rest, rfl⟩ := List.head?_eq_some_iff.mp hc
    exact ⟨[c], rest, if_pos (by simpa using hmem), c, rfl, rfl⟩
  | word chars => exact ⟨chars, _, if_pos h, rfl⟩

theorem split?_of_not_starts (h : ¬ pattern.Starts text) : pattern.split? text = none := by
  cases pattern with
  | digits | solid => exact run?_eq_none_iff.mpr (not_starts_iff.mp h)
  | oneOf set => exact split?_oneOf_eq_none_iff.mpr (not_starts_iff.mp h)
  | word chars => exact if_neg h

end Pattern

namespace Cursor

/-- A scan at the cursor takes the match and hands it out behind what was
collected, or it takes nothing. -/
structure AllOrNothing (pattern : Pattern) (c : Cursor Char) : Prop where
  hit : pattern.Starts c.unread → ∃ found d, c.scan pattern = (some (c.view ++ found), d) ∧
    pattern.Matches c.unread found ∧ found ++ d.unread = c.unread ∧ d.view = [] ∧
    d.mark = c.mark + found.length
  miss : ¬ pattern.Starts c.unread → ∃ d, c.scan pattern = (none, d) ∧
    d.unread = c.unread ∧ d.view = c.view ∧ d.mark = c.mark

/-- Going on from `c` to `d` went over the longest run, and `advanced` says
whether that was any item. The anchor stayed where it was. -/
def Skipped (p : α → Bool) (c : Cursor α) : Bool × Cursor α → Prop
  | (advanced, d) => ∃ run, LongestRun p c.unread run ∧ (advanced = true ↔ run ≠ []) ∧
    run ++ d.unread = c.unread ∧ d.view = c.view ++ run ∧ d.anchor = c.anchor ∧
    d.mark = c.mark + run.length

theorem At.allOrNothing {c : Cursor Char} {before view rest : List Char}
    (h : c.At before view rest) (pattern : Pattern) : AllOrNothing pattern c where
  hit := by
    rw [h.unread_eq, h.view_eq]
    intro hstarts
    obtain ⟨found, left, hsplit, hmatches⟩ := Pattern.split?_of_starts hstarts
    obtain ⟨d, hscan, hd⟩ := h.scan_hit hsplit
    have hmark : d.mark = c.mark + found.length := by
      simp [mark, hd.pos, h.pos, Nat.add_assoc]
    rw [← hd.unread_eq] at hsplit
    exact ⟨found, d, hscan, hmatches, Pattern.append_of_split? hsplit, hd.view_eq, hmark⟩
  miss := by
    rw [h.unread_eq, h.view_eq]
    intro hstarts
    obtain ⟨d, hscan, hd⟩ := h.scan_miss (Pattern.split?_of_not_starts hstarts)
    exact ⟨d, hscan, hd.unread_eq, hd.view_eq, hd.pos.trans h.pos.symm⟩

theorem At.skipped {c : Cursor α} {before view rest : List α} (h : c.At before view rest)
    (p : α → Bool) : c.Skipped p (c.skipRun p) := by
  have hd := h.skipWhile p
  have hmark : (c.skipWhile p).mark = c.mark + (rest.takeWhile p).length := by
    simp [mark, hd.pos, h.pos, Nat.add_assoc]
  rw [h.skipRun, Skipped, h.unread_eq, h.view_eq, hd.unread_eq, hd.view_eq]
  exact ⟨_, longestRun_takeWhile p rest, by simp, List.takeWhile_append_dropWhile, rfl,
    hd.anchor.trans h.anchor.symm, hmark⟩

/-- After any steps with any arguments, a scan is all or nothing and takes the
match as long as it goes, and skipping takes the longest run inside or outside
a set. -/
theorem observe_matching (text : List Char) (steps : List TextStep) :
    let c := (observe TextStep.run steps (ofList text)).2
    (∀ pattern, AllOrNothing pattern c) ∧
      ∀ set : List Char, c.Skipped (· ∈ set) (c.skipAll set) ∧
        c.Skipped (· ∉ set) (c.skipUntil set) := by
  intro c
  obtain ⟨view, rest, hat, -⟩ := (anchored_ofList text).run TextStep.releases steps
  exact ⟨hat.allOrNothing, fun set => ⟨hat.skipped _, hat.skipped _⟩⟩

end Cursor

end Abacus
