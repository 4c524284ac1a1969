import Abacus.Proofs.Cursor.Conservation

/-!
# The invariant of a cursor

No more is held than one item beyond the farthest place the cursor came to. The
places inside a step count too, as a word that does not match is backed out of,
so each step is taken apart into trials of single items (`reached`).
-/

namespace Abacus.Cursor

/-- Try to step over an item for each of the predicates, up to the first that
does not hold. -/
def tryAll : List (α → Bool) → Cursor α → Cursor α
  | [], c => c
  | p :: ps, c =>
    match c.acceptIf p with
    | (none, d) => d
    | (some _, d) => tryAll ps d

def passed : List (α → Bool) → Cursor α → List Nat
  | [], c => [c.pos]
  | p :: ps, c =>
    c.pos :: match c.acceptIf p with
      | (none, d) => [d.pos]
      | (some _, d) => passed ps d

def Step.trials [DecidableEq α] : Step α → Cursor α → List (α → Bool)
  | .next, _ => [fun _ => true]
  | .peek, _ => [fun _ => false]
  | .accept item, _ => [(· = item)]
  | .acceptAny set, _ => [(· ∈ set)]
  | .acceptIf p, _ => [p]
  | .skipAll set, c => List.replicate (c.remaining + 1) (· ∈ set)
  | .skipUntil set, c => List.replicate (c.remaining + 1) (· ∉ set)
  | .read count, _ => List.replicate count fun _ => true
  | .readAll, c => List.replicate c.remaining fun _ => true
  | .mark, _ | .restore _, _ | .view, _ | .discard, _ | .cut, _ => []

def patternTrials (c : Cursor Char) : Pattern → List (Char → Bool)
  | .digits => List.replicate (c.remaining + 1) (· ∈ Text.digits)
  | .oneOf set => [(· ∈ set)]
  | .word chars => chars.map fun char => (· = char)
  | .solid => List.replicate (c.remaining + 1) (· ∉ Text.blanks)

def TextStep.trials : TextStep → Cursor Char → List (Char → Bool)
  | .basic step, c => step.trials c
  | .skipBlanks, c => List.replicate (c.remaining + 1) (· ∈ Text.blanks)
  | .scan pattern, c => c.patternTrials pattern

section Trials

variable {α : Type} {p : α → Bool} {c d : Cursor α}

theorem tryAll_of_hit (h : c.acceptIf p = (some x, d)) : c.tryAll (p :: ps) = d.tryAll ps := by
  rw [tryAll, h]

theorem tryAll_of_miss (h : c.acceptIf p = (none, d)) : c.tryAll (p :: ps) = d := by
  rw [tryAll, h]

theorem tryAll_singleton (c : Cursor α) (p : α → Bool) : c.tryAll [p] = (c.acceptIf p).2 := by
  rcases h : c.acceptIf p with ⟨_ | x, d⟩
  · exact tryAll_of_miss h
  · exact tryAll_of_hit h

theorem tryAll_skipWhile (c : Cursor α) (p : α → Bool) (hn : c.remaining < n) :
    c.tryAll (List.replicate n p) = c.skipWhile p := by
  -- one trial for each item left and one that fails are always enough
  fun_induction skipWhile p c generalizing n with
  | case1 c d h =>
    obtain ⟨n, rfl⟩ := Nat.exists_eq_add_one_of_ne_zero (Nat.ne_zero_of_lt hn)
    rw [List.replicate_succ, tryAll_of_miss h]
  | case2 c x d h ih =>
    obtain ⟨n, rfl⟩ := Nat.exists_eq_add_one_of_ne_zero (Nat.ne_zero_of_lt hn)
    have hlt : d.remaining < n := Nat.lt_of_lt_of_le (remaining_acceptIf h) (Nat.le_of_lt_succ hn)
    rw [List.replicate_succ, tryAll_of_hit h, ih hlt]

theorem tryAll_read (c : Cursor α) (n : Nat) :
    c.tryAll (List.replicate n fun _ => true) = (c.read n).2 := by
  induction n generalizing c with
  | zero => rfl
  | succ n ih =>
    rw [List.replicate_succ, read, next]
    rcases h : c.acceptIf fun _ => true with ⟨_ | x, d⟩
    · exact tryAll_of_miss h
    · exact (tryAll_of_hit h).trans (ih d)

theorem tryAll_acceptEach [DecidableEq α] (c : Cursor α) (items : List α) :
    c.tryAll (items.map fun item => (· = item)) = (c.acceptEach items).2 := by
  induction items generalizing c with
  | nil => rfl
  | cons item items ih =>
    rw [List.map_cons, acceptEach, accept]
    rcases h : c.acceptIf (· = item) with ⟨_ | x, d⟩
    · exact tryAll_of_miss h
    · exact (tryAll_of_hit h).trans (ih d)

end Trials

/-- Of `before` items held, the number grew to `after`, but not beyond the item
at one of the places. -/
def HeldUpTo (places : List Nat) (before after : Nat) : Prop :=
  ∃ place ∈ places, after ≤ max before (place + 1)

theorem HeldUpTo.trans (h : HeldUpTo first a b) (h' : HeldUpTo later b c) :
    HeldUpTo (first ++ later) a c := by
  obtain ⟨place, hmem, hle⟩ := h
  obtain ⟨place', hmem', hle'⟩ := h'
  rcases Nat.le_total b (place' + 1) with hb | hb
  · exact ⟨place', List.mem_append_right _ hmem', by omega⟩
  · exact ⟨place, List.mem_append_left _ hmem, by omega⟩

theorem held_acceptIf_upTo {c d : Cursor α} (h : c.acceptIf p = (found, d)) :
    HeldUpTo [c.pos] c.held.size d.held.size := by
  have hheld : d.held = c.fill.held := by rw [← held_acceptIf c p, h]
  refine ⟨c.pos, List.mem_singleton_self _, ?_⟩
  rw [hheld, fill]
  split
  · exact Nat.le_max_left ..
  · split
    · exact Nat.le_max_left ..
    · rw [Array.size_push]
      omega

theorem held_tryAll (ps : List (α → Bool)) (c : Cursor α) :
    HeldUpTo (c.passed ps) c.held.size (c.tryAll ps).held.size := by
  induction ps generalizing c with
  | nil => exact ⟨c.pos, List.mem_singleton_self _, Nat.le_max_left ..⟩
  | cons p ps ih =>
    rcases h : c.acceptIf p with ⟨_ | x, d⟩
    · rw [tryAll_of_miss h, passed, h]
      exact (held_acceptIf_upTo h).trans ⟨d.pos, List.mem_singleton_self _, Nat.le_max_left ..⟩
    · rw [tryAll_of_hit h, passed, h]
      exact (held_acceptIf_upTo h).trans (ih d)

theorem Step.held_run [DecidableEq α] (step : Step α) (c : Cursor α) :
    (step.run c).2.held = (c.tryAll (step.trials c)).held := by
  cases step with
  | peek =>
    rw [trials, tryAll_singleton, held_acceptIf]
    rfl
  | next | accept | acceptAny | acceptIf => rw [trials, tryAll_singleton]; rfl
  | skipAll | skipUntil => rw [trials, tryAll_skipWhile c _ (Nat.lt_succ_self _)]; rfl
  | read | readAll => rw [trials, tryAll_read]; rfl
  | restore place => exact held_restore c place
  | mark | view | discard | cut => rfl

theorem held_advance (pattern : Pattern) (c : Cursor Char) :
    (c.advance pattern).2.held = (c.tryAll (c.patternTrials pattern)).held := by
  cases pattern with
  | digits | solid => rw [patternTrials, tryAll_skipWhile c _ (Nat.lt_succ_self _)]; rfl
  | oneOf set => rw [patternTrials, tryAll_singleton]; rfl
  | word chars =>
    rw [patternTrials, tryAll_acceptEach, advance, acceptWord]
    rcases c.acceptEach chars with ⟨_ | _, d⟩
    · exact held_restore d c.mark
    · rfl

theorem TextStep.held_run (step : TextStep) (c : Cursor Char) :
    (step.run c).2.held = (c.tryAll (step.trials c)).held := by
  cases step with
  | basic step => exact step.held_run c
  | skipBlanks => rw [trials, tryAll_skipWhile c _ (Nat.lt_succ_self _)]; rfl
  | scan pattern =>
    rw [trials, ← held_advance, TextStep.run, Cursor.scan]
    rcases c.advance pattern with ⟨_ | _, d⟩ <;> rfl

def reached (run : σ → Cursor α → Reply α × Cursor α) (trials : σ → Cursor α → List (α → Bool)) :
    List σ → Cursor α → List Nat
  | [], c => [c.pos]
  | step :: steps, c => c.passed (trials step c) ++ reached run trials steps (run step c).2

theorem held_observe {run : σ → Cursor α → Reply α × Cursor α}
    {trials : σ → Cursor α → List (α → Bool)}
    (hstep : ∀ step c, (run step c).2.held = (c.tryAll (trials step c)).held)
    (steps : List σ) (c : Cursor α) :
    HeldUpTo (reached run trials steps c) c.held.size (observe run steps c).2.held.size := by
  induction steps generalizing c with
  | nil => exact ⟨c.pos, List.mem_singleton_self _, Nat.le_max_left ..⟩
  | cons step steps ih =>
    have hlater := ih (run step c).2
    rw [hstep] at hlater
    exact (held_tryAll _ c).trans hlater

/-- What holds of a cursor over these items that came to these places. -/
structure Sound (items : List α) (places : List Nat) (c : Cursor α) : Prop where
  anchor_le : c.anchor ≤ c.pos
  pos_le : c.pos ≤ c.held.size
  held_le : c.held.size ≤ items.length
  held_prefix : c.held.toList <+: items
  held_source : c.held.toList ++ c.source = items
  view_eq : c.view = items.extract c.anchor c.pos
  one_ahead : ∃ place ∈ places, c.held.size ≤ place + 1
  restore_iff : ∀ place, (c.restore place).1 = true ↔ c.anchor ≤ place ∧ place ≤ c.held.size
  refused : ∀ place, (c.restore place).1 = false → (c.restore place).2 = c

theorem Anchored.sound {c : Cursor α} (h : Anchored items before c)
    (hheld : HeldUpTo places 0 c.held.size) : Sound items places c := by
  obtain ⟨view, rest, hat, rfl⟩ := h
  have hanchor := hat.anchor
  have hpos := hat.pos
  have hlength := congrArg List.length hat.items
  rw [List.length_append, Array.length_toList] at hlength
  refine ⟨by omega, hat.held, by omega, ⟨c.source, hat.items⟩, hat.items, ?_, ?_, ?_, ?_⟩
  · simp [hat.view_eq, hanchor, hpos, List.extract_eq_take_drop]
  · obtain ⟨place, hmem, hle⟩ := hheld
    exact ⟨place, hmem, by simpa using hle⟩
  · intro place
    unfold restore
    split
    · next hplace => exact iff_of_true rfl hplace
    · next hplace => exact iff_of_false nofun hplace
  · intro place hrefused
    unfold restore at hrefused ⊢
    split at hrefused
    · cases hrefused
    · next hplace => rw [if_neg hplace]

/-- Any steps with any arguments leave the cursor sound, and with it every mark
that is accepted or refused afterwards. -/
theorem observe_sound :
    (∀ {α : Type} [DecidableEq α] (items : List α) (steps : List (Step α)),
      Sound items (reached Step.run Step.trials steps (ofList items))
        (observe Step.run steps (ofList items)).2) ∧
    ∀ (text : List Char) (steps : List TextStep),
      Sound text (reached TextStep.run TextStep.trials steps (ofList text))
        (observe TextStep.run steps (ofList text)).2 :=
  ⟨fun items steps => ((anchored_ofList items).run Step.releases steps).sound
      (held_observe Step.held_run steps (ofList items)),
    fun text steps => ((anchored_ofList text).run TextStep.releases steps).sound
      (held_observe TextStep.held_run steps (ofList text))⟩

end Abacus.Cursor
