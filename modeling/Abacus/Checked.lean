/-! Operations on 64-bit signed integers that answer `none` when the exact result does
not fit. A remainder always fits and needs no check. -/

namespace Abacus.Checked

def ofInt? (n : Int) : Option Int64 :=
  if Int64.minValue.toInt ≤ n ∧ n ≤ Int64.maxValue.toInt then some (Int64.ofInt n) else none

def add (a b : Int64) : Option Int64 :=
  if a.toBitVec.saddOverflow b.toBitVec then none else some (a + b)

def sub (a b : Int64) : Option Int64 :=
  if a.toBitVec.ssubOverflow b.toBitVec then none else some (a - b)

def mul (a b : Int64) : Option Int64 :=
  if a.toBitVec.smulOverflow b.toBitVec then none else some (a * b)

/-- The quotient truncated toward zero. The divisor is not zero. -/
def div (a b : Int64) : Option Int64 :=
  if a.toBitVec.sdivOverflow b.toBitVec then none else some (a / b)

def mulTimes (base : Int64) : Nat → Int64 → Option Int64
  | 0, product => some product
  | n + 1, product =>
    match mul product base with
    | none => none
    | some product => mulTimes base n product

/-- A power by repeated multiplication. The bases 0, 1 and -1, whose powers
always fit, are answered at once; any other runs out of range, or to its end,
within 64 products. -/
def pow (base : Int64) (exponent : Nat) : Option Int64 :=
  if base = 0 ∧ 0 < exponent then some 0
  else if base = 1 then some 1
  else if base = -1 then some (if exponent % 2 = 0 then 1 else -1)
  else mulTimes base exponent 1

/-- The square root rounded down of a number with so many digits to base four,
one binary digit of the root at a time. -/
def rootDigits : Nat → Nat → Nat
  | 0, _ => 0
  | digits + 1, n =>
    let low := 2 * rootDigits digits (n / 4)
    if (low + 1) * (low + 1) ≤ n then low + 1 else low

def sqrt (a : Int64) : Option Int64 :=
  if a < 0 then none else some (Int64.ofNat (rootDigits 32 a.toInt.toNat))

end Abacus.Checked
