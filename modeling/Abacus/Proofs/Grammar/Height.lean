import Abacus.Proofs.Expr.Height
import Abacus.Proofs.RoundTrip
import Abacus.Proofs.Token.Concatenation

/-!
# The height of what is read

Left operands do not nest, so a level of nesting can put an operator of each of
the three levels and a square root on top of each other (`Means.height_le`). The
bound is met at every nesting (`tower`).
-/

namespace Abacus

namespace Grammar

def Level.rank : Level → Nat
  | .group => 0
  | .power => 1
  | .term => 2
  | .sum => 3

theorem Chain.rank_left (rule : Chain level left kind right) : level.rank = left.rank + 1 := by
  cases rule <;> rfl

theorem Chain.rank_right_le (rule : Chain level left kind right) : right.rank ≤ level.rank := by
  cases rule <;> decide

theorem Bracket.height_wrap_le (b : Bracket) (e : Expr) : (b.wrap e).height ≤ e.height + 1 := by
  cases b with
  | paren => exact Nat.le_succ _
  | sqrt => exact Nat.le_refl _

namespace Derivation

/-- Four nodes for each level of nesting. At the deepest there is none to hold
an operator, so its tree is a number whatever the production. -/
theorem Means.height_le {d : Derivation level} (h : d.Means e) :
    e.height + 2 ≤ max 3 (4 * d.nesting + level.rank) := by
  induction d generalizing e with
  | number t ht =>
    obtain ⟨v, -, rfl⟩ := h
    exact Nat.le_max_left ..
  | bracket b opening ho body close hc ih =>
    obtain ⟨a, ha, rfl⟩ := h
    have hbody := ih ha
    have hwrap := b.height_wrap_le a
    simp only [nesting, Level.rank] at hbody ⊢
    omega
  | operand rule d ih =>
    have hoperand := ih h
    have hrank := rule.rank_left
    simp only [nesting]
    omega
  | binary rule l op hop r ihl ihr =>
    obtain ⟨a, operator, b, ha, -, hb, rfl⟩ := h
    have hleft := ihl ha
    have hright := ihr hb
    have hrank := rule.rank_left
    have hrank' := rule.rank_right_le
    simp only [nesting, Expr.height]
    omega

def zero : Derivation .group := .number (.ofNat 0) rfl

theorem means_zero : zero.Means (.num 0) :=
  ⟨0, by simpa [Token.ofNat] using Numeral.spells_toDigits 0, rfl⟩

theorem opens_radical : Bracket.sqrt.Opens [.radical, .leftParen] := .sqrt rfl rfl

theorem kind_rightParen : Token.rightParen.kind = .closeParen := rfl

/-- Around a zero, so many times a root, a power, a product and a sum. -/
def tower : Nat → Derivation .sum
  | 0 => zero.raise .sum
  | n + 1 =>
    let root := bracket .sqrt _ opens_radical (tower n) .rightParen kind_rightParen
    let power := binary .power root (.ofOperator .pow) rfl zero
    let term := binary .term power (.ofOperator .mul) rfl (zero.raise .term)
    binary .sum term (.ofOperator .add) rfl (zero.raise .sum)

theorem nesting_tower (n : Nat) : (tower n).nesting = n := by
  induction n with
  | zero => rfl
  | succ n ih =>
    simp only [tower, nesting, nesting_raise, ih, zero]
    omega

theorem lexeme_tower (n : Nat) : ∀ t ∈ (tower n).tokens, t.kind.Lexeme t.lexeme.toList := by
  have hnumber := Token.isLexeme_ofNat 0
  have hop := Token.isLexeme_ofOperator
  have hradical : Token.radical.kind.Lexeme Token.radical.lexeme.toList := rfl
  have hleft : Token.leftParen.kind.Lexeme Token.leftParen.lexeme.toList := rfl
  have hright : Token.rightParen.kind.Lexeme Token.rightParen.lexeme.toList := rfl
  induction n with
  | zero => simpa [tower, zero, tokens] using hnumber
  | succ n ih =>
    simp only [tower, tokens, tokens_raise, zero, List.forall_mem_append, List.forall_mem_cons]
    simpa [hnumber, hop, hradical, hleft, hright] using ih

end Derivation

end Grammar

namespace Expr

def tower : Nat → Expr
  | 0 => .num 0
  | n + 1 =>
    .binary .add (.binary .mul (.binary .pow (.sqrt (tower n)) (.num 0)) (.num 0)) (.num 0)

theorem height_tower (n : Nat) : (tower n).height = 4 * n + 1 := by
  induction n with
  | zero => rfl
  | succ n ih =>
    simp only [tower, height, ih]
    omega

theorem value_tower (n : Nat) : (tower n).value = .ok 0 := by
  induction n with
  | zero => rfl
  | succ n ih =>
    have hroot : (sqrt (tower n)).value = .ok 0 := by rw [value, ih]; decide +kernel
    have hpower : (binary .pow (sqrt (tower n)) (num 0)).value = .ok 1 := by
      rw [value, hroot]; decide +kernel
    have hterm : (binary .mul (binary .pow (sqrt (tower n)) (num 0)) (num 0)).value = .ok 0 := by
      rw [value, hpower]; decide +kernel
    rw [tower, value, hterm]
    decide +kernel

end Expr

namespace Grammar

open Abacus.Grammar.Derivation (zero means_zero)

theorem means_tower (n : Nat) : (Derivation.tower n).Means (Expr.tower n) := by
  induction n with
  | zero => exact Derivation.means_raise.mpr means_zero
  | succ n ih =>
    have hterm : (zero.raise .term).Means (.num 0) := Derivation.means_raise.mpr means_zero
    have hsum : (zero.raise .sum).Means (.num 0) := Derivation.means_raise.mpr means_zero
    have hop := Token.lexeme_ofOperator
    exact ⟨_, .add, _, ⟨_, .mul, _, ⟨_, .pow, _, ⟨_, ih, rfl⟩, hop .pow, means_zero, rfl⟩,
      hop .mul, hterm, rfl⟩, hop .add, hsum, rfl⟩

theorem ofTokens_tower (hn : n ≤ maxDepth) :
    Expr.ofTokens (Derivation.tower n).tokens = .ok (Expr.tower n) := by
  refine ofTokens_eq_ok_iff_means.mpr ⟨_, rfl, ?_, means_tower n⟩
  rwa [Derivation.nesting_tower]

theorem height_le_of_ofTokens (h : Expr.ofTokens tokens = .ok e) : e.height ≤ 4 * maxDepth + 1 := by
  obtain ⟨d, -, hn, hm⟩ := ofTokens_eq_ok_iff_means.mp h
  have hd := hm.height_le
  simp only [Level.rank] at hd
  omega

/-- A tree that is read is at most 513 nodes high, and its height is how deep
the calls nest that write it or visit all of it, or that work it out if it has a
value. A text has a tree of this height and with a value. -/
theorem ofTokens_height :
    4 * maxDepth + 1 = 513 ∧
    (∀ tokens e, Expr.ofTokens tokens = .ok e →
      e.height ≤ 4 * maxDepth + 1 ∧
      Needs e.charsWithin e.height e.chars ∧ Needs e.visitWithin e.height () ∧
      ∃ calls ≤ e.height, Needs e.valueWithin calls e.value ∧
        ∀ v, e.value = .ok v → calls = e.height) ∧
    ∃ text tokens e v, Token.ofText text = .ok tokens ∧ Expr.ofTokens tokens = .ok e ∧
      e.height = 4 * maxDepth + 1 ∧ e.value = .ok v := by
  refine ⟨rfl, fun tokens e h => ?_, ?_⟩
  · exact ⟨height_le_of_ofTokens h, e.needs_charsWithin, e.needs_visitWithin, e.needs_valueWithin⟩
  · have htext := Token.ofText_lexemes (Derivation.lexeme_tower maxDepth)
    exact ⟨_, _, _, 0, htext, ofTokens_tower (Nat.le_refl _), Expr.height_tower _,
      Expr.value_tower _⟩

theorem ofTokens_height_of_tower :
    let e := Expr.tower 128
    Expr.ofTokens (Derivation.tower 128).tokens = .ok e ∧
      e.height ≤ 4 * maxDepth + 1 ∧ Needs e.charsWithin 513 e.chars ∧
      Needs e.visitWithin 513 () ∧ Needs e.valueWithin 513 (.ok 0) := by
  intro e
  have hread : Expr.ofTokens (Derivation.tower 128).tokens = .ok e := ofTokens_tower (Nat.le_refl _)
  have hheight : e.height = 513 := Expr.height_tower 128
  have hvalue : e.value = .ok 0 := Expr.value_tower 128
  obtain ⟨hle, hchars, hvisit, calls, -, hneeds, hcalls⟩ := ofTokens_height.2.1 _ e hread
  rw [hcalls 0 hvalue, hvalue] at hneeds
  rw [hheight] at hchars hvisit hneeds
  exact ⟨hread, hle, hchars, hvisit, hneeds⟩

end Grammar

end Abacus
