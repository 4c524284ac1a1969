import Abacus.Checked
import Abacus.Expr.Basic

/-! Operands are worked out from left to right and before their operator, so a fault
in the left operand hides one in the right, and both hide its own. -/

namespace Abacus

inductive Fault where
  | divisionByZero
  | negativeRadicand (operand : Int64)
  | negativeExponent (exponent : Int64)
  | overflow (op : Operator)
deriving DecidableEq

def Operator.apply (op : Operator) (a b : Int64) : Except Fault Int64 :=
  match op with
  | .add => fits (Checked.add a b)
  | .sub => fits (Checked.sub a b)
  | .mul => fits (Checked.mul a b)
  | .div => if b = 0 then .error .divisionByZero else fits (Checked.div a b)
  | .rem => if b = 0 then .error .divisionByZero else .ok (a % b)
  | .pow => if b < 0 then .error (.negativeExponent b) else fits (Checked.pow a b.toInt.toNat)
where
  fits : Option Int64 → Except Fault Int64
    | some value => .ok value
    | none => .error (.overflow op)

def Expr.value : Expr → Except Fault Int64
  | .num value => .ok value
  | .sqrt operand => do
    let a ← operand.value
    match Checked.sqrt a with
    | some root => .ok root
    | none => .error (.negativeRadicand a)
  | .binary op left right => do
    let a ← left.value
    let b ← right.value
    op.apply a b

end Abacus
