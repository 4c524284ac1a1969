import Abacus.Expr.Written
import Abacus.Proofs.Arithmetic.Exact

/-!
# The height of an expression

Calls of a recursion over an expression nest as deep as the tree is high. `Needs`
says so of a recursion that is given the depth it may go to. Working an
expression out may need less, as a fault leaves the rest of the tree alone.
-/

namespace Abacus

/-- A recursion gives its result exactly if its calls may nest so deep. -/
def Needs (within : Nat → Option β) (calls : Nat) (result : β) : Prop :=
  ∀ n, within n = if calls ≤ n then some result else none

theorem Needs.call {within : Nat → Option β} (hzero : within 0 = none)
    (hsucc : ∀ n, within (n + 1) = if calls ≤ n then some result else none) :
    Needs within (calls + 1) result := by
  intro n
  cases n with
  | zero => rw [hzero, if_neg (Nat.not_succ_le_zero calls)]
  | succ n => simp only [hsucc, Nat.add_le_add_iff_right]

namespace Expr

/-- The number of nodes on the longest way from the root to a leaf. -/
def height : Expr → Nat
  | .num _ => 1
  | .sqrt operand => operand.height + 1
  | .binary _ left right => max left.height right.height + 1

section Fold

variable (leaf : Int64 → β) (root : β → β) (node : Operator → β → β → β)

/-- A result put together from those of the operands, in calls nested no deeper
than the number given. -/
def foldWithin : Expr → Nat → Option β
  | _, 0 => none
  | .num value, _ + 1 => return leaf value
  | .sqrt operand, n + 1 => do
    let a ← operand.foldWithin n
    return root a
  | .binary op left right, n + 1 => do
    let a ← left.foldWithin n
    let b ← right.foldWithin n
    return node op a b

variable {leaf root node} {f : Expr → β}

theorem needs_foldWithin (hleaf : ∀ value, f (.num value) = leaf value)
    (hroot : ∀ operand, f (.sqrt operand) = root (f operand))
    (hnode : ∀ op left right, f (.binary op left right) = node op (f left) (f right)) (e : Expr) :
    Needs (e.foldWithin leaf root node) e.height (f e) := by
  induction e with
  | num value =>
    refine .call rfl fun n => ?_
    rw [hleaf, if_pos n.zero_le]
    rfl
  | sqrt operand ih =>
    refine .call rfl fun n => ?_
    rw [hroot, foldWithin, ih n]
    split <;> rfl
  | binary op left right ihl ihr =>
    refine .call rfl fun n => ?_
    rw [hnode, foldWithin, ihl n, ihr n]
    simp only [Nat.max_le]
    by_cases hl : left.height ≤ n <;> by_cases hr : right.height ≤ n <;> simp [hl, hr]

end Fold

def charsWithin : Expr → Nat → Option (List Char) :=
  foldWithin (fun value => (Numeral.write value.toInt).toList)
    (fun operand => "sqrt(".toList ++ operand ++ [')'])
    fun op left right => '(' :: (left ++ ' ' :: op.symbol :: ' ' :: (right ++ [')']))

def visitWithin : Expr → Nat → Option Unit := foldWithin (fun _ => ()) id fun _ _ _ => ()

theorem needs_charsWithin (e : Expr) : Needs e.charsWithin e.height e.chars :=
  needs_foldWithin (f := chars) (fun _ => rfl) (fun _ => rfl) (fun _ _ _ => rfl) e

theorem needs_visitWithin (e : Expr) : Needs e.visitWithin e.height () :=
  needs_foldWithin (f := fun _ => ()) (fun _ => rfl) (fun _ => rfl) (fun _ _ _ => rfl) e

def valueWithin : Expr → Nat → Option (Except Fault Int64)
  | _, 0 => none
  | .num value, _ + 1 => some (.ok value)
  | .sqrt operand, n + 1 => (operand.valueWithin n).map fun outcome => do
    let a ← outcome
    match Checked.sqrt a with
    | some root => .ok root
    | none => .error (.negativeRadicand a)
  | .binary op left right, n + 1 =>
    match left.valueWithin n with
    | none => none
    | some (.error fault) => some (.error fault)
    | some (.ok a) => (right.valueWithin n).map fun outcome => do
      let b ← outcome
      op.apply a b

theorem needs_valueWithin_sqrt (h : Needs operand.valueWithin calls operand.value) :
    Needs (sqrt operand).valueWithin (calls + 1) (sqrt operand).value := by
  refine .call rfl fun n => ?_
  rw [valueWithin, h n]
  split <;> rfl

theorem needs_valueWithin_fault (h : Needs left.valueWithin calls left.value)
    (hf : left.value = .error fault) :
    Needs (binary op left right).valueWithin (calls + 1) (binary op left right).value := by
  refine .call rfl fun n => ?_
  rw [valueWithin, value, h n, hf]
  by_cases hc : calls ≤ n
  · rw [if_pos hc, if_pos hc]
    rfl
  · rw [if_neg hc, if_neg hc]

theorem needs_valueWithin_binary (hl : Needs left.valueWithin calls left.value)
    (hr : Needs right.valueWithin calls' right.value) (ha : left.value = .ok a) :
    Needs (binary op left right).valueWithin (max calls calls' + 1)
      (binary op left right).value := by
  refine .call rfl fun n => ?_
  rw [valueWithin, value, hl n, hr n, ha]
  by_cases hc : calls ≤ n
  · simp only [Nat.max_le, hc, true_and, if_true]
    by_cases hc' : calls' ≤ n <;> simp only [hc', if_true, if_false] <;> rfl
  · simp only [Nat.max_le, hc, false_and, if_false]

theorem needs_valueWithin (e : Expr) :
    ∃ calls ≤ e.height, Needs e.valueWithin calls e.value ∧
      ∀ v, e.value = .ok v → calls = e.height := by
  induction e with
  | num value =>
    refine ⟨1, Nat.le_refl 1, .call rfl fun n => ?_, fun _ _ => rfl⟩
    rw [if_pos n.zero_le]
    rfl
  | sqrt operand ih =>
    obtain ⟨calls, hle, h, hok⟩ := ih
    refine ⟨calls + 1, Nat.succ_le_succ hle, needs_valueWithin_sqrt h, fun v hv => ?_⟩
    obtain ⟨a, ha, -⟩ := value_sqrt_eq_ok_iff.mp hv
    rw [hok a ha, height]
  | binary op left right ihl ihr =>
    obtain ⟨calls, hle, hl, hok⟩ := ihl
    obtain ⟨calls', hle', hr, hok'⟩ := ihr
    -- a fault on the left leaves the right operand alone
    cases ha : left.value with
    | error fault =>
      have hleft : calls ≤ max left.height right.height := Nat.le_trans hle (Nat.le_max_left ..)
      refine ⟨calls + 1, Nat.succ_le_succ hleft, needs_valueWithin_fault hl ha, fun v hv => ?_⟩
      obtain ⟨a, b, ha', -⟩ := value_binary_eq_ok_iff.mp hv
      cases ha.symm.trans ha'
    | ok a =>
      have hboth : max calls calls' ≤ max left.height right.height :=
        Nat.max_le.mpr
          ⟨Nat.le_trans hle (Nat.le_max_left ..), Nat.le_trans hle' (Nat.le_max_right ..)⟩
      refine ⟨max calls calls' + 1, Nat.succ_le_succ hboth, needs_valueWithin_binary hl hr ha,
        fun v hv => ?_⟩
      obtain ⟨-, b, -, hb, -⟩ := value_binary_eq_ok_iff.mp hv
      rw [hok a ha, hok' b hb, height]

end Expr

end Abacus
