import Abacus.Proofs.Grammar.Reachable
import Abacus.Proofs.Grammar.TokenErrors

/-!
# The contract of the productions

With room for every token ahead the rules leave no choice, whatever stands where
the room is used up (`Descends.coincide`). So the productions can as well call
each other without a bound (`descend_unbounded`).
-/

namespace Abacus.Grammar

/-- Productions with room are made from each other as the rules say, and from
those with less room where a token comes first. Nothing is said of productions
without room. -/
structure Descends (tokens : List Token) (P : Nat → Level → Production) : Prop where
  chain : ∀ {level left kind right}, Chain level left kind right →
    ∀ room s, Reachable tokens s → (P (room + 1) level).run s =
      (Grammar.chain (some maxDepth) (P (room + 1) left) kind (P room right)).run s
  group : ∀ room s, Reachable tokens s →
    (P (room + 1) .group).run s = (Grammar.group (some maxDepth) (P room)).run s

/-- These productions are made from each other as the rules say. -/
def Unbounded (tokens : List Token) (P : Level → Production) : Prop := Descends tokens fun _ => P

theorem production_descends (tokens : List Token) :
    Descends tokens (production (some maxDepth)) where
  chain := by
    intro level left kind right rule room s _
    cases rule <;> rfl
  group := fun _ _ _ => rfl

theorem Descends.coincide (hP : Descends tokens P) (hQ : Descends tokens Q) (hroom : n < room)
    (hroom' : n < room') (level : Level) : Coincide tokens n (P room level) (Q room' level) := by
  -- right operands and groups come after a token, so there the tokens ahead have become fewer
  induction n using Nat.strongRecOn generalizing room room' level with
  | ind n ih =>
    obtain ⟨room, rfl⟩ := Nat.exists_eq_succ_of_ne_zero (Nat.ne_zero_of_lt hroom)
    obtain ⟨room', rfl⟩ := Nat.exists_eq_succ_of_ne_zero (Nat.ne_zero_of_lt hroom')
    have hright (level : Level) (k : Nat) (hk : k < n) :
        Coincide tokens k (P room level) (Q room' level) := ih k hk (by omega) (by omega) level
    have hgroup : Coincide tokens n (P (room + 1) .group) (Q (room' + 1) .group) :=
      ((Coincide.group (hright .sum)).congr_left (hP.group room)).congr_right (hQ.group room')
    have hchain {level left kind right} (rule : Chain level left kind right)
        (hleft : Coincide tokens n (P (room + 1) left) (Q (room' + 1) left)) :
        Coincide tokens n (P (room + 1) level) (Q (room' + 1) level) :=
      ((hleft.chain kind (hright right)).congr_left (hP.chain rule room)).congr_right
        (hQ.chain rule room')
    have hpower := hchain .power hgroup
    have hterm := hchain .term hpower
    have hsum := hchain .sum hterm
    cases level <;> assumption

def descend (level : Level) : Production :=
  ExceptT.mk fun s => (production (some maxDepth) (s.ahead + 1) level).run s

theorem coincide_descend (hroom : n < room) (tokens : List Token) (level : Level) :
    Coincide tokens n (production (some maxDepth) room level) (descend level) := by
  intro s hs hn
  have hproduction := production_descends tokens
  have hcoincide := hproduction.coincide hproduction (Nat.lt_of_le_of_lt hn hroom)
    (Nat.lt_succ_self s.ahead) level
  exact hcoincide s hs (Nat.le_refl _)

theorem descend_unbounded (tokens : List Token) : Unbounded tokens descend where
  chain := by
    intro level left kind right rule _ s hs
    have hproduction := (production_descends tokens).chain rule s.ahead s hs
    have hleft := coincide_descend (Nat.lt_succ_self s.ahead) tokens left
    have hchain := hleft.chain kind fun k hk => coincide_descend hk tokens right
    obtain ⟨answer, t, hbounded, hunbounded, -⟩ := hchain s hs (Nat.le_refl _)
    exact hproduction.trans (hbounded.trans hunbounded.symm)
  group := by
    intro _ s hs
    have hproduction := (production_descends tokens).group s.ahead s hs
    have hgroup : Coincide tokens s.ahead (Grammar.group (some maxDepth)
        (production (some maxDepth) s.ahead)) (Grammar.group (some maxDepth) descend) :=
      .group fun k hk => coincide_descend hk tokens .sum
    obtain ⟨answer, t, hbounded, hunbounded, -⟩ := hgroup s hs (Nat.le_refl _)
    exact hproduction.trans (hbounded.trans hunbounded.symm)

/-- What a production makes of the state it is called in. It ends at the depth
where it began, having been nowhere beyond the limit; its place can be gone back
to; and it answers `none`, in that place, exactly where no operand begins. -/
structure Contract (s : State) (outcome : Answer × State) : Prop where
  depth_eq : outcome.2.depth = s.depth
  deepest_le : outcome.2.deepest ≤ maxDepth
  anchor_eq : outcome.2.tokens.anchor = 0
  goes_back : (outcome.2.tokens.restore s.tokens.mark).1 = true
  absent_iff : outcome.1 = .ok none ↔
    ∀ t, s.tokens.peek.1 = some t → t.kind ∉ [.number, .openParen, .sqrt]
  stays : outcome.1 = .ok none → outcome.2.tokens.mark = s.tokens.mark
  advances : ∀ e, outcome.1 = .ok (some e) → s.tokens.mark < outcome.2.tokens.mark

theorem Ahead.anchor_eq (h : Ahead all rest c) : c.anchor = 0 := by
  obtain ⟨read, -, hat⟩ := h
  exact hat.anchor

theorem Ahead.mark_add (h : Ahead all rest c) : c.mark + rest.length = all.length := by
  obtain ⟨read, rfl, hat⟩ := h
  have hpos : c.pos = read.length := by simpa using hat.pos
  rw [Cursor.mark, hpos, List.length_append]

theorem Ahead.mark_le (h : Ahead all rest c) : c.mark ≤ c.held.size := by
  obtain ⟨read, -, hat⟩ := h
  exact hat.held

theorem Ahead.peek_eq (h : Ahead all rest c) : c.peek.1 = rest.head? := by
  obtain ⟨read, -, hat⟩ := h
  rw [hat.peek]

theorem stops_begins_iff_kind {tokens : List Token} :
    Stops begins tokens ↔ ∀ t, tokens.head? = some t → t.kind ∉ [.number, .openParen, .sqrt] := by
  simp [Stops, begins]

theorem Reads.peak_le (h : Reads (some n) call level depth tokens answer rest trace)
    (hd : depth ≤ n) : trace.peak ≤ n := by
  induction h with
  | deeper hlimit _ ih =>
    have hle := within_some.mp hlimit
    simpa using ⟨hle, ih hle⟩
  | operandFails _ _ ih | noOperand _ _ ih | bodyFails _ _ ih | noBody _ _ ih | unclosed _ _ _ ih
  | bracket _ _ _ ih => exact ih hd
  | operand _ _ _ ih => simpa using ih hd
  | rightFails _ _ _ _ ihl ihr | noRight _ _ _ _ ihl ihr | unknownOperator _ _ _ _ _ ihl ihr
  | binary _ _ _ _ _ ihl ihr => exact Trace.peak_append_le.mpr ⟨ihl hd, ihr hd⟩
  | tooDeep | noGroup | number | outOfRange | bareRadical => exact Nat.zero_le _

theorem Reachable.contract (h : Reachable tokens s) (level : Level) (hroom : s.ahead < room) :
    Contract s ((production (some maxDepth) room level).run s) := by
  have hs := h.stands
  obtain ⟨answer, rest, trace, hreads⟩ :=
    answers (some maxDepth) .same level s.depth s.tokens.unread
  obtain ⟨c, hrun, hc⟩ := hreads.yields hroom tokens s hs.ahead rfl
  change (production (some maxDepth) room level).run s = _ at hrun
  rw [hrun]
  have hmark := hs.ahead.mark_add.trans hc.mark_add.symm
  have hsuffix := hreads.suffix.length_le
  refine ⟨rfl, ?_, hc.anchor_eq, ?_, ?_, ?_, ?_⟩
  · exact Nat.max_le.mpr ⟨hs.deepest_le, hreads.peak_le hs.depth_le⟩
  · have hle : s.tokens.mark ≤ c.mark := by omega
    have hheld := Nat.le_trans hle hc.mark_le
    change (c.restore s.tokens.mark).1 = true
    rw [Cursor.restore, if_pos ⟨hc.anchor_eq ▸ Nat.zero_le _, hheld⟩]
  · rw [hs.ahead.peek_eq, ← stops_begins_iff_kind]
    constructor
    · rintro rfl
      exact hreads.stops_of_none
    · intro hstops
      obtain ⟨d, hnone, -⟩ := (reads_none hstops).yields hroom tokens s hs.ahead rfl
      change (production (some maxDepth) room level).run s = _ at hnone
      exact congrArg Prod.fst (hrun.symm.trans hnone)
  · rintro rfl
    have hrest := hreads.rest_eq_of_none
    change c.mark = s.tokens.mark
    rw [hrest] at hmark
    omega
  · rintro e rfl
    have hlt := hreads.length_lt
    change s.tokens.mark < c.mark
    omega

theorem Descends.run_eq (hP : Descends tokens P) (hs : Reachable tokens s) (hroom : s.ahead < room)
    (level : Level) : (P room level).run s = (production (some maxDepth) room level).run s := by
  obtain ⟨answer, t, hp, hq, -⟩ :=
    hP.coincide (production_descends tokens) hroom hroom level s hs (Nat.le_refl _)
  exact hp.trans hq.symm

namespace Unbounded

theorem reachable (hP : Unbounded tokens P) (hs : Reachable tokens s) (level : Level) :
    Reachable tokens ((P level).run s).2 := by
  obtain ⟨answer, t, hp, -, ht, -⟩ := hP.coincide hP (Nat.lt_succ_self s.ahead)
    (Nat.lt_succ_self s.ahead) level s hs (Nat.le_refl _)
  rwa [hp]

theorem contract (hP : Unbounded tokens P) (hs : Reachable tokens s) (level : Level) :
    Contract s ((P level).run s) := by
  have hrun := Descends.run_eq hP hs (Nat.lt_succ_self s.ahead) level
  exact hrun ▸ hs.contract level (Nat.lt_succ_self _)

theorem nested (hP : Unbounded tokens P) (hs : Reachable tokens s) (level : Level) :
    let below := ((Grammar.nested (some maxDepth) (P level)).run s).2
    Reachable tokens below ∧ below.depth = s.depth ∧ below.deepest ≤ maxDepth := by
  rw [run_nested]
  by_cases hfull : maxDepth ≤ s.depth
  · rw [if_pos hfull]
    exact ⟨hs, rfl, hs.stands.deepest_le⟩
  · rw [if_neg hfull]
    have hentered : Reachable tokens s.entered := hs.enter (Nat.lt_of_not_le hfull)
    have hbody := hP.contract hentered level
    exact ⟨(hP.reachable hentered level).leave, congrArg (· - 1) hbody.depth_eq, hbody.deepest_le⟩

end Unbounded

/-- The productions of the grammar can call each other without a bound, and with
room for every token ahead a bound does not show, whatever stands where the room
is used up. In the states a run can be in each keeps its contract and ends in
such a state again, and one level deeper it comes back up. -/
theorem production_contract (tokens : List Token) :
    (∀ s, Reachable tokens s → s.depth ≤ maxDepth ∧ s.tokens.anchor = 0) ∧
    (∃ P, Unbounded tokens P) ∧
    (∀ P, Descends tokens P → ∀ s, Reachable tokens s → ∀ level room,
      s.tokens.unread.length < room →
      (P room level).run s = (production (some maxDepth) room level).run s) ∧
    ∀ P, Unbounded tokens P → ∀ s, Reachable tokens s → ∀ level,
      let outcome := (P level).run s
      let below := ((nested (some maxDepth) (P level)).run s).2
      Contract s outcome ∧ Reachable tokens outcome.2 ∧
      Reachable tokens below ∧ below.depth = s.depth ∧ below.deepest ≤ maxDepth := by
  refine ⟨fun s hs => ?_, ⟨descend, descend_unbounded tokens⟩, fun P hP s hs level room hroom => ?_,
    fun P hP s hs level => ?_⟩
  · exact ⟨hs.stands.depth_le, hs.stands.ahead.anchor_eq⟩
  · exact hP.run_eq hs hroom level
  · exact ⟨hP.contract hs level, hP.reachable hs level, hP.nested hs level⟩

theorem production_contract_within_group :
    let tokens : List Token := [⟨.openParen, "("⟩, ⟨.openParen, "("⟩, ⟨.number, "1"⟩, ⟨.sumOp, "+"⟩,
      ⟨.number, "2"⟩, ⟨.closeParen, ")"⟩]
    let s := ((accept .openParen).run (.ofTokens tokens)).2.entered
    ∃ P, Unbounded tokens P ∧ Reachable tokens s ∧ s.depth = 1 ∧ s.tokens.unread.length < 7 ∧
      ((P .group).run s).1 = .ok (some (.binary .add (.num 1) (.num 2))) ∧
      1 < ((P .group).run s).2.tokens.mark ∧ ((P .group).run s).2.depth = 1 := by
  intro tokens s
  have hs : Reachable tokens s := (Reachable.start.accept .openParen).enter (by decide)
  have hroom : s.tokens.unread.length < 7 := by decide +kernel
  obtain ⟨-, ⟨P, hP⟩, hbound, hall⟩ := production_contract tokens
  obtain ⟨hcontract, -⟩ := hall P hP s hs .group
  have hanswer : ((P .group).run s).1 = .ok (some (.binary .add (.num 1) (.num 2))) := by
    have hrun := hbound (fun _ => P) hP s hs .group 7 hroom
    rw [hrun]
    decide +kernel
  exact ⟨P, hP, hs, rfl, hroom, hanswer, hcontract.advances _ hanswer, hcontract.depth_eq⟩

end Abacus.Grammar
