import Abacus.Proofs.Cursor.Buffering

/-!
# No item is lost

The anchor only ever moves to the cursor. The items it passes over are released:
handed out by a cut or a match, or dropped. A step leaves the others in their
order, wherever the cursor goes among them (`Releases`).
-/

namespace Abacus.Cursor

/-- The items a step releases, from the cursor before it and the reply to it. -/
def Step.released : Step α → Cursor α → Reply α → List α
  | .discard, c, _ => c.view
  | .cut, _, .items piece => piece
  | _, _, _ => []

/-- A match is handed out with what was collected before it, and blanks are
dropped with it. -/
def TextStep.released : TextStep → Cursor Char → Reply Char → List Char
  | .basic step, c, reply => step.released c reply
  | .skipBlanks, c, _ => c.view ++ c.unread.takeWhile (· ∈ Text.blanks)
  | .scan _, _, .lexeme (some piece) => piece
  | .scan _, _, _ => []

def released (run : σ → Cursor α → Reply α × Cursor α) (part : σ → Cursor α → Reply α → List α) :
    List σ → Cursor α → List α
  | [], _ => []
  | step :: steps, c => part step c (run step c).1 ++ released run part steps (run step c).2

/-- The cursor is over these items, with those of `before` in front of its anchor. -/
def Anchored (items before : List α) (c : Cursor α) : Prop :=
  ∃ view rest, c.At before view rest ∧ before ++ (view ++ rest) = items

theorem anchored_ofList (items : List α) : (ofList items).Anchored items [] :=
  ⟨[], items, at_ofList items, rfl⟩

def Keeps (f : Cursor α → β × Cursor α) : Prop :=
  ∀ items before c, Anchored items before c → Anchored items before (f c).2

namespace Keeps

theorem acceptIf (p : α → Bool) : Keeps (Cursor.acceptIf p) := by
  rintro items before c ⟨view, rest, h, hitems⟩
  match rest with
  | [] =>
    obtain ⟨d, hd, hat⟩ := h.acceptIf_miss (p := p) nofun
    rw [hd]
    exact ⟨view, [], hat, hitems⟩
  | x :: rest =>
    cases hp : p x with
    | true =>
      obtain ⟨d, hd, hat⟩ := h.acceptIf_hit hp
      rw [hd]
      exact ⟨view ++ [x], rest, hat, by simpa using hitems⟩
    | false =>
      obtain ⟨d, hd, hat⟩ := h.acceptIf_miss (stops_cons hp)
      rw [hd]
      exact ⟨view, x :: rest, hat, hitems⟩

theorem peek : Keeps (Cursor.peek (α := α)) := by
  rintro items before c ⟨view, rest, h, hitems⟩
  exact ⟨view, rest, h.fill, hitems⟩

theorem skipRun (p : α → Bool) : Keeps (Cursor.skipRun p) := by
  rintro items before c ⟨view, rest, h, rfl⟩
  exact ⟨_, _, h.skipWhile p, by rw [List.append_assoc, List.takeWhile_append_dropWhile]⟩

theorem restore (place : Nat) : Keeps (Cursor.restore (α := α) place) := by
  rintro items before c ⟨view, rest, h, rfl⟩
  -- forward over items that were only looked at is possible too
  by_cases hplace : before.length ≤ place ∧ place ≤ c.held.size
  · obtain ⟨hr, hat⟩ := h.restore_held hplace.1 hplace.2
    rw [hr]
    exact ⟨_, _, hat, by rw [List.take_append_drop]⟩
  · have hr : c.restore place = (false, c) := if_neg (h.anchor ▸ hplace)
    rw [hr]
    exact ⟨view, rest, h, rfl⟩

theorem read (n : Nat) : Keeps (Cursor.read (α := α) n) := by
  rintro items before c ⟨view, rest, h, rfl⟩
  obtain ⟨d, hd, hat⟩ := h.read n
  rw [hd]
  exact ⟨_, _, hat, by rw [List.append_assoc, List.take_append_drop]⟩

theorem readAll : Keeps (Cursor.readAll (α := α)) :=
  fun items before c => Keeps.read c.remaining items before c

theorem stays (answer : Cursor α → β) : Keeps fun c => (answer c, c) := fun _ _ _ h => h

end Keeps

/-- The operation moves the anchor over this part of the items. -/
def Releases (f : Cursor α → β × Cursor α) (part : Cursor α → β → List α) : Prop :=
  ∀ items before c, Anchored items before c → Anchored items (before ++ part c (f c).1) (f c).2

theorem Keeps.releases {f : Cursor α → β × Cursor α} (hf : Keeps f)
    (hpart : ∀ c answer, part c answer = []) : Releases f part := by
  intro items before c h
  rw [hpart, List.append_nil]
  exact hf items before c h

theorem At.anchored_discard {c : Cursor α} {before view rest items : List α}
    (h : c.At before view rest) (hitems : before ++ (view ++ rest) = items) :
    c.discard.Anchored items (before ++ view) :=
  ⟨[], rest, h.discard, by simpa using hitems⟩

theorem Step.releases [DecidableEq α] (step : Step α) : Releases step.run step.released := by
  cases step with
  | next => exact (Keeps.acceptIf _).releases fun _ _ => rfl
  | peek => exact Keeps.peek.releases fun _ _ => rfl
  | mark => exact (Keeps.stays fun c => Reply.place c.mark).releases fun _ _ => rfl
  | restore place => exact (Keeps.restore place).releases fun _ _ => rfl
  | accept item => exact (Keeps.acceptIf _).releases fun _ _ => rfl
  | acceptAny set => exact (Keeps.acceptIf _).releases fun _ _ => rfl
  | acceptIf p => exact (Keeps.acceptIf p).releases fun _ _ => rfl
  | skipAll set => exact (Keeps.skipRun _).releases fun _ _ => rfl
  | skipUntil set => exact (Keeps.skipRun _).releases fun _ _ => rfl
  | view => exact (Keeps.stays fun c => Reply.items c.view).releases fun _ _ => rfl
  | discard | cut =>
    rintro items before c ⟨view, rest, h, hitems⟩
    have hview : c.view = view := h.view_eq
    simpa [released, Step.run, Cursor.cut, hview] using h.anchored_discard hitems
  | read count => exact (Keeps.read count).releases fun _ _ => rfl
  | readAll => exact Keeps.readAll.releases fun _ _ => rfl

theorem TextStep.releases (step : TextStep) : Releases step.run step.released := by
  rintro items before c ⟨view, rest, h, hitems⟩
  cases step with
  | basic step => exact step.releases items before c ⟨view, rest, h, hitems⟩
  | skipBlanks =>
    refine ⟨[], rest.dropWhile (· ∈ Text.blanks), ?_, ?_⟩
    · rw [released, h.view_eq, h.unread_eq]
      exact h.skipBlanks
    · rw [released, h.view_eq, h.unread_eq, List.nil_append, List.append_assoc, List.append_assoc,
        List.takeWhile_append_dropWhile]
      exact hitems
  | scan pattern =>
    cases hs : pattern.split? rest with
    | none =>
      obtain ⟨d, hd, hat⟩ := h.scan_miss hs
      simpa [TextStep.run, released, hd] using ⟨view, rest, hat, hitems⟩
    | some found =>
      obtain ⟨d, hd, hat⟩ := h.scan_hit hs
      have hrest : found.1 ++ found.2 = rest := Pattern.append_of_split? hs
      simpa [TextStep.run, released, hd] using ⟨[], found.2, hat, by simpa [hrest] using hitems⟩

theorem Anchored.run {run : σ → Cursor α → Reply α × Cursor α}
    {part : σ → Cursor α → Reply α → List α} (hstep : ∀ step, Releases (run step) (part step))
    (h : Anchored items before c) (steps : List σ) :
    Anchored items (before ++ released run part steps c) (observe run steps c).2 := by
  induction steps generalizing before c with
  | nil => simpa [released, observe] using h
  | cons step steps ih =>
    have hlater := ih (hstep step items before c h)
    rwa [List.append_assoc] at hlater

theorem Anchored.parts (h : Anchored items before c) :
    before ++ c.view ++ c.readAll.1 = items := by
  obtain ⟨view, rest, hat, rfl⟩ := h
  obtain ⟨d, hd, -⟩ := hat.readAll
  rw [hd, hat.view_eq, List.append_assoc]

/-- Whatever a run does, also with marks that are refused: the items it
released, in order, then the view it leaves, then the items it has still to
come to are the items there were. -/
theorem released_view_rest :
    (∀ {α : Type} [DecidableEq α] (items : List α) (steps : List (Step α)),
      let final := (observe Step.run steps (ofList items)).2
      released Step.run Step.released steps (ofList items) ++ final.view ++ final.readAll.1 =
        items) ∧
    ∀ (text : List Char) (steps : List TextStep),
      let final := (observe TextStep.run steps (ofList text)).2
      released TextStep.run TextStep.released steps (ofList text) ++ final.view ++
        final.readAll.1 = text :=
  ⟨fun items steps => ((anchored_ofList items).run Step.releases steps).parts,
    fun text steps => ((anchored_ofList text).run TextStep.releases steps).parts⟩

end Abacus.Cursor
