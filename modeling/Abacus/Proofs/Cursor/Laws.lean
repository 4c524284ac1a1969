import Abacus.Cursor.Basic

/-!
# Cursor laws

A cursor parts its sequence in three: what was handed out or dropped before the
anchor, the piece from the anchor to the cursor, and the rest. Each operation is
described by what it does to the three (`At`). How far ahead items are held is no
part of it, and shows only in the marks that `restore` refuses.
-/

namespace Abacus.Cursor

variable {before view rest : List α} {c d : Cursor α} {p : α → Bool}

/-- The cursor stands between `view` and `rest`, its anchor before `view`. -/
structure At (before view rest : List α) (c : Cursor α) : Prop where
  items : c.held.toList ++ c.source = before ++ (view ++ rest)
  anchor : c.anchor = before.length
  pos : c.pos = before.length + view.length
  held : c.pos ≤ c.held.size

theorem at_ofList (items : List α) : (ofList items).At [] [] items :=
  ⟨rfl, rfl, rfl, Nat.zero_le _⟩

theorem At.unread_eq (h : c.At before view rest) : c.unread = rest := by
  have hd : (c.held.toList ++ c.source).drop c.pos = rest := by
    rw [h.items, h.pos, ← List.append_assoc, ← List.length_append, List.drop_left]
  rwa [List.drop_append_of_le_length (by simpa using h.held)] at hd

theorem At.view_eq (h : c.At before view rest) : c.view = view := by
  have hd : (c.held.toList ++ c.source).drop c.anchor = view ++ rest := by
    rw [h.items, h.anchor, List.drop_left]
  have ha : c.anchor ≤ c.held.toList.length := by
    have := h.anchor; have := h.pos; have := h.held
    simp only [Array.length_toList]
    omega
  rw [List.drop_append_of_le_length ha] at hd
  have hn : c.pos - c.anchor = view.length := by have := h.anchor; have := h.pos; omega
  have hl : view.length ≤ (c.held.toList.drop c.anchor).length := by
    have := h.anchor; have := h.pos; have := h.held
    simp only [List.length_drop, Array.length_toList]
    omega
  rw [Cursor.view, Array.toList_extract, List.extract_eq_take_drop, hn,
    ← List.take_append_of_le_length hl, hd, List.take_left]

theorem At.fill (h : c.At before view rest) : c.fill.At before view rest := by
  unfold Cursor.fill
  split
  · exact h
  · split
    · exact h
    · next hs =>
      refine ⟨?_, h.anchor, h.pos, ?_⟩
      · simpa [hs] using h.items
      · have := h.held
        simp only [Array.size_push]
        omega

theorem At.peek (h : c.At before view rest) : c.peek = (rest.head?, c.fill) := by
  have hu : c.held.toList.drop c.pos ++ c.source = rest := h.unread_eq
  suffices hh : c.fill.held[c.fill.pos]? = rest.head? by rw [Cursor.peek, hh]
  unfold Cursor.fill
  split
  · next hlt => rw [← hu, List.head?_append, List.head?_drop]; simp [hlt]
  · next hge =>
    rw [List.drop_eq_nil_of_le (by simpa using hge), List.nil_append] at hu
    have hpos : c.pos = c.held.size := Nat.le_antisymm h.held (Nat.le_of_not_lt hge)
    split
    · next hs => rw [← hu, hs]; simp [hpos]
    · next hs => rw [← hu, hs]; simp [hpos]

theorem At.step (h : c.At before view (x :: rest)) (hlt : c.pos < c.held.size) :
    { c with pos := c.pos + 1 }.At before (view ++ [x]) rest := by
  refine ⟨by simpa using h.items, h.anchor, ?_, hlt⟩
  rw [h.pos, List.length_append, List.length_singleton, Nat.add_assoc]

theorem At.acceptIf_hit (h : c.At before view (x :: rest)) (hp : p x = true) :
    ∃ d, c.acceptIf p = (some x, d) ∧ d.At before (view ++ [x]) rest := by
  have hk := h.peek
  have hlt : c.fill.pos < c.fill.held.size := by
    have hx : c.fill.held[c.fill.pos]? = some x := congrArg Prod.fst hk
    exact (Array.getElem?_eq_some_iff.mp hx).1
  exact ⟨_, by simp [Cursor.acceptIf, hk, hp], h.fill.step hlt⟩

theorem At.acceptIf_miss (h : c.At before view rest) (hp : ∀ x, rest.head? = some x → p x = false) :
    ∃ d, c.acceptIf p = (none, d) ∧ d.At before view rest := by
  refine ⟨c.fill, ?_, h.fill⟩
  cases rest with
  | nil => simp [Cursor.acceptIf, h.peek]
  | cons x rest => simp [Cursor.acceptIf, h.peek, hp x rfl]

theorem skipWhile_of_hit (h : c.acceptIf p = (some x, d)) : c.skipWhile p = d.skipWhile p := by
  rw [skipWhile]
  split <;> simp_all

theorem skipWhile_of_miss (h : c.acceptIf p = (none, d)) : c.skipWhile p = d := by
  rw [skipWhile]
  split <;> simp_all

theorem At.skipWhile (h : c.At before view rest) (p : α → Bool) :
    (c.skipWhile p).At before (view ++ rest.takeWhile p) (rest.dropWhile p) := by
  induction rest generalizing c view with
  | nil =>
    obtain ⟨d, hd, hat⟩ := h.acceptIf_miss (p := p) (by simp)
    simpa [skipWhile_of_miss hd] using hat
  | cons x rest ih =>
    by_cases hp : p x = true
    · obtain ⟨d, hd, hat⟩ := h.acceptIf_hit hp
      simpa [skipWhile_of_hit hd, hp] using ih hat
    · obtain ⟨d, hd, hat⟩ := h.acceptIf_miss (p := p) (by simpa using hp)
      simpa [skipWhile_of_miss hd, hp] using hat

theorem At.skipRun (h : c.At before view rest) (p : α → Bool) :
    c.skipRun p = (!(rest.takeWhile p).isEmpty, c.skipWhile p) := by
  have hd := h.skipWhile p
  have hpos := hd.pos
  rw [List.length_append] at hpos
  simp only [Cursor.skipRun, h.pos, hpos, Prod.mk.injEq, and_true]
  cases rest.takeWhile p <;> simp

theorem At.discard (h : c.At before view rest) : c.discard.At (before ++ view) [] rest where
  items := by rw [List.append_assoc]; exact h.items
  anchor := by rw [List.length_append]; exact h.pos
  pos := by rw [List.length_append]; exact h.pos
  held := h.held

theorem At.cut (h : c.At before view rest) : c.cut = (view, c.discard) := by
  rw [Cursor.cut, h.view_eq]

theorem At.restore (h : c.At before (view ++ passed) rest) :
    ∃ d, c.restore (before.length + view.length) = (true, d) ∧
      d.At before view (passed ++ rest) := by
  have hle : before.length + view.length ≤ c.held.size := by
    have := h.pos; have := h.held
    rw [List.length_append] at *
    omega
  refine ⟨_, if_pos ⟨by simp [h.anchor], hle⟩, by simpa using h.items, h.anchor, rfl, hle⟩

theorem At.remaining_eq (h : c.At before view rest) : c.remaining = rest.length := by
  have hl := congrArg List.length h.unread_eq
  simpa [Cursor.unread, Cursor.remaining] using hl

theorem At.read (h : c.At before view rest) (n : Nat) :
    ∃ d, c.read n = (rest.take n, d) ∧ d.At before (view ++ rest.take n) (rest.drop n) := by
  induction n generalizing c view rest with
  | zero => exact ⟨c, rfl, by simpa using h⟩
  | succ n ih =>
    cases rest with
    | nil =>
      obtain ⟨d, hd, hat⟩ := h.acceptIf_miss (p := fun _ => true) (by simp)
      exact ⟨d, by simp [Cursor.read, Cursor.next, hd], by simpa using hat⟩
    | cons x rest =>
      obtain ⟨d, hd, hat⟩ := h.acceptIf_hit (p := fun _ => true) rfl
      obtain ⟨e, he, hat⟩ := ih hat
      exact ⟨e, by simp [Cursor.read, Cursor.next, hd, he], by simpa using hat⟩

theorem At.readAll (h : c.At before view rest) :
    ∃ d, c.readAll = (rest, d) ∧ d.At before (view ++ rest) [] := by
  obtain ⟨d, hd, hat⟩ := h.read rest.length
  refine ⟨d, ?_, by simpa using hat⟩
  rw [Cursor.readAll, h.remaining_eq, hd, List.take_length]

section Words

variable [DecidableEq α] {items word : List α}

theorem At.acceptEach_hit (h : c.At before view (items ++ rest)) :
    ∃ d, c.acceptEach items = (true, d) ∧ d.At before (view ++ items) rest := by
  induction items generalizing c view with
  | nil => exact ⟨c, rfl, by simpa using h⟩
  | cons item items ih =>
    obtain ⟨d, hd, hat⟩ := h.acceptIf_hit (p := (· = item)) (by simp)
    obtain ⟨e, he, hat⟩ := ih hat
    exact ⟨e, by simp [acceptEach, accept, hd, he], by simpa using hat⟩

theorem At.acceptEach_miss (h : c.At before view rest) (hi : ¬ items <+: rest) :
    ∃ d passed left, c.acceptEach items = (false, d) ∧ passed ++ left = rest ∧
      d.At before (view ++ passed) left := by
  induction items generalizing c view rest with
  | nil => exact absurd List.nil_prefix hi
  | cons item items ih =>
    by_cases hx : rest.head? = some item
    · obtain ⟨tail, rfl⟩ := List.head?_eq_some_iff.mp hx
      obtain ⟨d, hd, hat⟩ := h.acceptIf_hit (p := (· = item)) (by simp)
      obtain ⟨e, passed, left, he, hl, hat⟩ := ih hat (by simpa using hi)
      exact ⟨e, item :: passed, left, by simp [acceptEach, accept, hd, he], by simp [hl],
        by simpa using hat⟩
    · obtain ⟨d, hd, hat⟩ := h.acceptIf_miss (p := (· = item)) (by grind)
      exact ⟨d, [], rest, by simp [acceptEach, accept, hd], rfl, by simpa using hat⟩

theorem At.acceptWord_hit (h : c.At before view (word ++ rest)) :
    ∃ d, c.acceptWord word = (true, d) ∧ d.At before (view ++ word) rest := by
  obtain ⟨d, hd, hat⟩ := h.acceptEach_hit
  exact ⟨d, by simp [acceptWord, hd], hat⟩

theorem At.acceptWord_miss (h : c.At before view rest) (hw : ¬ word <+: rest) :
    ∃ d, c.acceptWord word = (false, d) ∧ d.At before view rest := by
  obtain ⟨d, passed, left, hd, rfl, hat⟩ := h.acceptEach_miss hw
  obtain ⟨e, he, hat⟩ := hat.restore
  exact ⟨e, by simp [acceptWord, hd, mark, h.pos, he], hat⟩

end Words

end Abacus.Cursor
