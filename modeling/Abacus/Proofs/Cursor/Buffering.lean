import Abacus.Cursor.Script
import Abacus.Proofs.Cursor.PatternLaws

/-!
# Buffering cannot be observed

Two cursors are alike if they part their items at the same places. How many items
they hold ahead only `restore` asks for. Every other operation is blind to it:
its reply and what it leaves depend on the three parts alone (`Blind`).
-/

namespace Abacus.Cursor

/-- A cursor over items that were all pulled beforehand. -/
def preloaded (items : List α) : Cursor α := ⟨items.toArray, [], 0, 0⟩

theorem at_preloaded (items : List α) : (preloaded items).At [] [] items :=
  ⟨List.append_nil _, rfl, rfl, Nat.zero_le _⟩

section Held

variable {α : Type} {p : α → Bool}

theorem held_fill_le (c : Cursor α) : c.held.size ≤ c.fill.held.size := by
  unfold fill
  split
  · exact Nat.le_refl _
  · split
    · exact Nat.le_refl _
    · simp

theorem held_acceptIf (c : Cursor α) (p : α → Bool) : (c.acceptIf p).2.held = c.fill.held := by
  have hpeek : c.peek = (c.fill.held[c.fill.pos]?, c.fill) := rfl
  rw [acceptIf, hpeek]
  cases c.fill.held[c.fill.pos]? with
  | none => rfl
  | some x => simp only; split <;> rfl

theorem held_le_of_acceptIf {c d : Cursor α} (h : c.acceptIf p = (found, d)) :
    c.held.size ≤ d.held.size := by
  have hheld := held_acceptIf c p
  rw [h] at hheld
  rw [hheld]
  exact held_fill_le c

theorem held_skipWhile_le (c : Cursor α) (p : α → Bool) :
    c.held.size ≤ (c.skipWhile p).held.size := by
  fun_induction skipWhile p c with
  | case1 c d h => exact held_le_of_acceptIf h
  | case2 c x d h ih => exact Nat.le_trans (held_le_of_acceptIf h) ih

theorem held_read_le (n : Nat) (c : Cursor α) : c.held.size ≤ (c.read n).2.held.size := by
  induction n generalizing c with
  | zero => exact Nat.le_refl _
  | succ n ih =>
    rw [read, next]
    split
    · next d h => exact held_le_of_acceptIf h
    · next x d h => exact Nat.le_trans (held_le_of_acceptIf h) (ih d)

theorem held_restore (c : Cursor α) (mark : Nat) : (c.restore mark).2.held = c.held := by
  unfold restore
  split <;> rfl

theorem held_acceptEach_le [DecidableEq α] (items : List α) (c : Cursor α) :
    c.held.size ≤ (c.acceptEach items).2.held.size := by
  induction items generalizing c with
  | nil => exact Nat.le_refl _
  | cons item items ih =>
    rw [acceptEach, accept]
    split
    · next d h => exact held_le_of_acceptIf h
    · next x d h => exact Nat.le_trans (held_le_of_acceptIf h) (ih d)

theorem held_acceptWord_le [DecidableEq α] (word : List α) (c : Cursor α) :
    c.held.size ≤ (c.acceptWord word).2.held.size := by
  have heach := held_acceptEach_le word c
  rw [acceptWord]
  split
  · next d h => rwa [h] at heach
  · next d h =>
    rw [held_restore]
    rwa [h] at heach

theorem held_advance_le (pattern : Pattern) (c : Cursor Char) :
    c.held.size ≤ (c.advance pattern).2.held.size := by
  cases pattern with
  | digits | solid => exact held_skipWhile_le c _
  | oneOf set => exact held_le_of_acceptIf rfl
  | word chars => exact held_acceptWord_le chars c

theorem held_scan_le (pattern : Pattern) (c : Cursor Char) :
    c.held.size ≤ (c.scan pattern).2.held.size := by
  have hadvance := held_advance_le pattern c
  rw [scan]
  split
  · next d h => rwa [h] at hadvance
  · next d h => rwa [h] at hadvance

end Held

-- ---------------------------------------------------------------------------
-- Blind operations
-- ---------------------------------------------------------------------------

/-- Both cursors part their items at the same places. -/
def Alike (c d : Cursor α) : Prop :=
  ∃ before view rest, c.At before view rest ∧ d.At before view rest

theorem Alike.mark_eq {c d : Cursor α} (h : Alike c d) : c.mark = d.mark := by
  obtain ⟨before, view, rest, hc, hd⟩ := h
  exact hc.pos.trans hd.pos.symm

theorem Alike.view_eq {c d : Cursor α} (h : Alike c d) : c.view = d.view := by
  obtain ⟨before, view, rest, hc, hd⟩ := h
  exact hc.view_eq.trans hd.view_eq.symm

def Settled (f : Cursor α → β × Cursor α) : Prop :=
  ∀ before view rest, ∃ answer before' view' rest', ∀ c, c.At before view rest →
    ∃ d, f c = (answer, d) ∧ d.At before' view' rest'

/-- The operation cannot see how many items are held ahead, and gives up none of them. -/
structure Blind (f : Cursor α → β × Cursor α) : Prop where
  settled : Settled f
  held : ∀ c, c.held.size ≤ (f c).2.held.size

namespace Blind

variable {f : Cursor α → β × Cursor α}

theorem alike (hf : Blind f) (h : Alike c d) : (f c).1 = (f d).1 ∧ Alike (f c).2 (f d).2 := by
  obtain ⟨before, view, rest, hc, hd⟩ := h
  obtain ⟨answer, before', view', rest', hparts⟩ := hf.settled before view rest
  obtain ⟨c', hfc, hc'⟩ := hparts c hc
  obtain ⟨d', hfd, hd'⟩ := hparts d hd
  rw [hfc, hfd]
  exact ⟨rfl, before', view', rest', hc', hd'⟩

theorem map (hf : Blind f) (g : β → γ) : Blind fun c => (f c).map g id where
  held := hf.held
  settled := by
    intro before view rest
    obtain ⟨answer, before', view', rest', hparts⟩ := hf.settled before view rest
    refine ⟨g answer, before', view', rest', fun c hc => ?_⟩
    obtain ⟨d, hd, hat⟩ := hparts c hc
    exact ⟨d, by simp [hd], hat⟩

theorem acceptIf (p : α → Bool) : Blind (Cursor.acceptIf p) where
  held _ := held_le_of_acceptIf rfl
  settled := by
    intro before view rest
    match rest with
    | [] => exact ⟨none, _, _, _, fun c hc => hc.acceptIf_miss nofun⟩
    | x :: rest =>
      cases hp : p x with
      | true => exact ⟨some x, _, _, _, fun c hc => hc.acceptIf_hit hp⟩
      | false => exact ⟨none, _, _, _, fun c hc => hc.acceptIf_miss (stops_cons hp)⟩

theorem peek : Blind (Cursor.peek (α := α)) where
  held := held_fill_le
  settled _ _ rest := ⟨rest.head?, _, _, _, fun c hc => ⟨c.fill, hc.peek, hc.fill⟩⟩

theorem skipRun (p : α → Bool) : Blind (Cursor.skipRun p) where
  held c := held_skipWhile_le c p
  settled _ _ _ := ⟨_, _, _, _, fun c hc => ⟨c.skipWhile p, hc.skipRun p, hc.skipWhile p⟩⟩

theorem mark : Blind fun c : Cursor α => (c.mark, c) where
  held _ := Nat.le_refl _
  settled _ _ _ := ⟨_, _, _, _, fun c hc => ⟨c, Prod.ext hc.pos rfl, hc⟩⟩

theorem view : Blind fun c : Cursor α => (c.view, c) where
  held _ := Nat.le_refl _
  settled _ _ _ := ⟨_, _, _, _, fun c hc => ⟨c, Prod.ext hc.view_eq rfl, hc⟩⟩

theorem discard : Blind fun c : Cursor α => ((), c.discard) where
  held _ := Nat.le_refl _
  settled _ _ _ := ⟨_, _, _, _, fun c hc => ⟨c.discard, rfl, hc.discard⟩⟩

theorem cut : Blind (Cursor.cut (α := α)) where
  held _ := Nat.le_refl _
  settled _ _ _ := ⟨_, _, _, _, fun c hc => ⟨c.discard, hc.cut, hc.discard⟩⟩

theorem read (n : Nat) : Blind (Cursor.read (α := α) n) where
  held := held_read_le n
  settled _ _ _ := ⟨_, _, _, _, fun _ hc => hc.read n⟩

theorem readAll : Blind (Cursor.readAll (α := α)) where
  held c := held_read_le c.remaining c
  settled _ _ _ := ⟨_, _, _, _, fun _ hc => hc.readAll⟩

theorem scan (pattern : Pattern) : Blind (Cursor.scan pattern) where
  held := held_scan_le pattern
  settled := by
    intro before view text
    cases hs : pattern.split? text with
    | none => exact ⟨none, _, _, _, fun c hc => hc.scan_miss hs⟩
    | some found => exact ⟨_, _, _, _, fun c hc => hc.scan_hit hs⟩

theorem skipBlanks : Blind Cursor.skipBlanks where
  held c := held_skipWhile_le c _
  settled := by
    intro before view text
    refine ⟨!(text.takeWhile (· ∈ Text.blanks)).isEmpty, _, _, _, fun c hc =>
      ⟨(c.skipWhile (· ∈ Text.blanks)).discard, ?_, (hc.skipWhile _).discard⟩⟩
    rw [Cursor.skipBlanks, skipAll, hc.skipRun]

end Blind

section Restore

variable {c d : Cursor α} {before view rest : List α}

theorem At.restore_held (h : c.At before view rest) (ha : before.length ≤ place)
    (hp : place ≤ c.held.size) :
    c.restore place = (true, { c with pos := place }) ∧
      { c with pos := place }.At before ((view ++ rest).take (place - before.length))
        ((view ++ rest).drop (place - before.length)) := by
  have hlen := congrArg List.length h.items
  simp only [List.length_append, Array.length_toList] at hlen
  refine ⟨if_pos ⟨Nat.le_trans (Nat.le_of_eq h.anchor) ha, hp⟩, ?_, h.anchor, ?_, hp⟩
  · rw [List.take_append_drop]
    exact h.items
  · simp only [List.length_take, List.length_append]
    omega

theorem Alike.restore (h : Alike c d) (hc : place ≤ c.held.size) (hd : place ≤ d.held.size) :
    (c.restore place).1 = (d.restore place).1 ∧ Alike (c.restore place).2 (d.restore place).2 := by
  obtain ⟨before, view, rest, hatc, hatd⟩ := h
  rcases Nat.lt_or_ge place before.length with hlt | hge
  · have hrefused {e : Cursor α} (hat : e.At before view rest) : e.restore place = (false, e) :=
      if_neg fun hn => Nat.not_le_of_lt hlt (hat.anchor ▸ hn.1)
    rw [hrefused hatc, hrefused hatd]
    exact ⟨rfl, before, view, rest, hatc, hatd⟩
  · obtain ⟨hrc, hatc⟩ := hatc.restore_held hge hc
    obtain ⟨hrd, hatd⟩ := hatd.restore_held hge hd
    rw [hrc, hrd]
    exact ⟨rfl, before, _, _, hatc, hatd⟩

end Restore

def Step.target : Step α → Option Nat
  | .restore place => some place
  | _ => none

def TextStep.target : TextStep → Option Nat
  | .basic step => step.target
  | _ => none

def Reply.marks : Reply α → List Nat
  | .place mark => [mark]
  | _ => []

/-- Apart from going back, steps are blind, and the only mark they report is their place. -/
structure BlindSteps (run : σ → Cursor α → Reply α × Cursor α) (target : σ → Option Nat) :
    Prop where
  blind : ∀ step, target step = none → Blind (run step)
  restore : ∀ step place c, target step = some place →
    run step c = (c.restore place).map .flag id
  marks : ∀ step c, ∀ m ∈ (run step c).1.marks, m = c.mark

theorem Step.blind [DecidableEq α] (step : Step α) (h : step.target = none) : Blind step.run := by
  cases step with
  | next => exact (Blind.acceptIf _).map _
  | peek => exact Blind.peek.map _
  | mark => exact Blind.mark.map Reply.place
  | restore place => cases h
  | accept item => exact (Blind.acceptIf _).map _
  | acceptAny set => exact (Blind.acceptIf _).map _
  | acceptIf p => exact (Blind.acceptIf p).map _
  | skipAll set => exact (Blind.skipRun _).map _
  | skipUntil set => exact (Blind.skipRun _).map _
  | view => exact Blind.view.map Reply.items
  | discard => exact Blind.discard.map fun _ => Reply.done
  | cut => exact Blind.cut.map _
  | read count => exact (Blind.read count).map _
  | readAll => exact Blind.readAll.map _

theorem Step.blindSteps [DecidableEq α] : BlindSteps (Step.run (α := α)) Step.target where
  blind := Step.blind
  restore step place c h := by
    cases step <;> cases h
    rfl
  marks step c m hm := by
    cases step with
    | mark => exact List.mem_singleton.mp hm
    | _ => cases hm

theorem TextStep.blindSteps : BlindSteps TextStep.run TextStep.target where
  blind step h := by
    cases step with
    | basic step => exact step.blind h
    | skipBlanks => exact Blind.skipBlanks.map _
    | scan pattern => exact (Blind.scan pattern).map _
  restore step place c h := by
    cases step with
    | basic step => exact Step.blindSteps.restore step place c h
    | skipBlanks | scan => cases h
  marks step c m hm := by
    cases step with
    | basic step => exact Step.blindSteps.marks step c m hm
    | skipBlanks | scan => cases hm

-- ---------------------------------------------------------------------------
-- Runs
-- ---------------------------------------------------------------------------

/-- Every place gone back to is one of `marks` or was reported as a mark before. -/
def OnlyToMarks (run : σ → Cursor α → Reply α × Cursor α) (target : σ → Option Nat) :
    List Nat → List σ → Cursor α → Prop
  | _, [], _ => True
  | marks, step :: steps, c =>
    (∀ place, target step = some place → place ∈ marks) ∧
      OnlyToMarks run target ((run step c).1.marks ++ marks) steps (run step c).2

section Runs

variable {run : σ → Cursor α → Reply α × Cursor α} {target : σ → Option Nat} {marks : List Nat}

theorem observe_cons (step : σ) (steps : List σ) (c : Cursor α) :
    (observe run (step :: steps) c).1 =
      ⟨(run step c).1, (run step c).2.mark, (run step c).2.view⟩ ::
        (observe run steps (run step c).2).1 := rfl

def HoldMarks (marks : List Nat) (c d : Cursor α) : Prop :=
  ∀ m ∈ marks, m ≤ c.held.size ∧ m ≤ d.held.size

namespace BlindSteps

theorem held (laws : BlindSteps run target) (step : σ) (c : Cursor α) :
    c.held.size ≤ (run step c).2.held.size := by
  cases h : target step with
  | none => exact (laws.blind step h).held c
  | some place =>
    rw [laws.restore step place c h]
    exact Nat.le_of_eq (congrArg Array.size (held_restore c place).symm)

theorem alike (laws : BlindSteps run target) (h : Alike c d) (hm : HoldMarks marks c d)
    (ht : ∀ place, target step = some place → place ∈ marks) :
    (run step c).1 = (run step d).1 ∧ Alike (run step c).2 (run step d).2 := by
  cases hs : target step with
  | none => exact (laws.blind step hs).alike h
  | some place =>
    obtain ⟨hc, hd⟩ := hm place (ht place hs)
    obtain ⟨hreply, hleft⟩ := h.restore hc hd
    rw [laws.restore step place c hs, laws.restore step place d hs]
    exact ⟨congrArg Reply.flag hreply, hleft⟩

theorem holdMarks (laws : BlindSteps run target) (h : Alike c d) (hm : HoldMarks marks c d)
    (step : σ) :
    HoldMarks ((run step c).1.marks ++ marks) (run step c).2 (run step d).2 := by
  intro m hmem
  have hle : m ≤ c.held.size ∧ m ≤ d.held.size := by
    rcases List.mem_append.mp hmem with hnew | hold
    · obtain ⟨before, view, rest, hc, hd⟩ := h
      obtain rfl := laws.marks step c m hnew
      exact ⟨hc.held, Alike.mark_eq ⟨before, view, rest, hc, hd⟩ ▸ hd.held⟩
    · exact hm m hold
  exact ⟨Nat.le_trans hle.1 (laws.held step c), Nat.le_trans hle.2 (laws.held step d)⟩

theorem observe_eq (laws : BlindSteps run target) (h : Alike c d) (hm : HoldMarks marks c d)
    (hs : OnlyToMarks run target marks steps c) :
    (observe run steps c).1 = (observe run steps d).1 := by
  induction steps generalizing marks c d with
  | nil => rfl
  | cons step steps ih =>
    obtain ⟨htarget, hlater⟩ := hs
    -- a mark reported by one is held by both, so going back to it is refused by neither
    obtain ⟨hreply, hleft⟩ := laws.alike h hm htarget
    rw [observe_cons, observe_cons, hreply, hleft.mark_eq, hleft.view_eq,
      ih hleft (laws.holdMarks h hm step) hlater]

theorem observe_preloaded_eq (laws : BlindSteps run target)
    (hs : OnlyToMarks run target [] steps (ofList items)) :
    (observe run steps (ofList items)).1 = (observe run steps (preloaded items)).1 := by
  have hnone : HoldMarks [] (ofList items) (preloaded items) := fun _ hm => nomatch hm
  exact laws.observe_eq ⟨[], [], items, at_ofList items, at_preloaded items⟩ hnone hs

end BlindSteps

end Runs

/-- Pulling items one by one and holding all of them to begin with are the same
to anyone who goes back only to marks: every reply, place and view agrees, over
items of any kind and with the patterns over text. -/
theorem observe_preloaded :
    (∀ {α : Type} [DecidableEq α] (items : List α) (steps : List (Step α)),
      OnlyToMarks Step.run Step.target [] steps (ofList items) →
      (observe Step.run steps (ofList items)).1 = (observe Step.run steps (preloaded items)).1) ∧
    ∀ (text : List Char) (steps : List TextStep),
      OnlyToMarks TextStep.run TextStep.target [] steps (ofList text) →
      (observe TextStep.run steps (ofList text)).1 =
        (observe TextStep.run steps (preloaded text)).1 :=
  ⟨fun _ _ => Step.blindSteps.observe_preloaded_eq,
    fun _ _ => TextStep.blindSteps.observe_preloaded_eq⟩

theorem observe_preloaded_going_back :
    let steps : List (Step Nat) := [.next, .mark, .skipAll [1, 4], .restore 1, .readAll]
    let words : List TextStep := [.basic .next, .basic .mark, .scan (.word ['s', 'q', 'r', 't']),
      .basic .next, .basic (.restore 1), .scan .solid, .basic (.restore 1)]
    let text := ['x', 's', 'q', 'r']
    OnlyToMarks Step.run Step.target [] steps (ofList [3, 1, 4, 1]) ∧
      OnlyToMarks TextStep.run TextStep.target [] words (ofList text) ∧
      (observe Step.run steps (ofList [3, 1, 4, 1])).1 =
        (observe Step.run steps (preloaded [3, 1, 4, 1])).1 ∧
      (observe TextStep.run words (ofList text)).1 =
        (observe TextStep.run words (preloaded text)).1 := by
  intro steps words text
  have hsteps : OnlyToMarks Step.run Step.target [] steps (ofList [3, 1, 4, 1]) := by
    refine ⟨nofun, nofun, nofun, ?_, nofun, trivial⟩
    rintro _ ⟨⟩
    decide +kernel
  have hwords : OnlyToMarks TextStep.run TextStep.target [] words (ofList text) := by
    refine ⟨nofun, nofun, nofun, nofun, ?_, nofun, ?_, trivial⟩ <;> rintro _ ⟨⟩ <;> decide +kernel
  exact ⟨hsteps, hwords, observe_preloaded.1 _ _ hsteps, observe_preloaded.2 _ _ hwords⟩

end Abacus.Cursor
