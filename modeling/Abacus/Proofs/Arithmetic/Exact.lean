import Mathlib.Algebra.Order.Ring.Int
import Abacus.Expr.Value
import Abacus.Proofs.Arithmetic.CheckedLaws

/-!
# Values over unbounded integers

The relation `Exact` is arithmetic alone and says nothing where a result is
undefined. The function `bounded` gives each node a fault to report, and the
first one wins. Both agree with the value computed in 64 bits.
-/

namespace Abacus

/-- The result of an operator, where it has one. Division truncates toward zero. -/
def Operator.Exact : Operator → Int → Int → Int → Prop
  | .add, a, b, n => n = a + b
  | .sub, a, b, n => n = a - b
  | .mul, a, b, n => n = a * b
  | .div, a, b, n => b ≠ 0 ∧ n = a.tdiv b
  | .rem, a, b, n => b ≠ 0 ∧ n = a - b * a.tdiv b
  | .pow, a, b, n => 0 ≤ b ∧ n = a ^ b.toNat

def Expr.Exact : Expr → Int → Prop
  | .num value, n => n = value.toInt
  | .sqrt operand, n => ∃ a, operand.Exact a ∧ n * n ≤ a ∧ a < (n + 1) * (n + 1)
  | .binary op left right, n => ∃ a b, left.Exact a ∧ right.Exact b ∧ op.Exact a b n

def Expr.parts : Expr → List Expr
  | .num value => [.num value]
  | .sqrt operand => .sqrt operand :: operand.parts
  | .binary op left right => .binary op left right :: (left.parts ++ right.parts)

/-- `Fault` with integers for the numbers at fault. -/
inductive ExactFault where
  | divisionByZero
  | negativeRadicand (operand : Int)
  | negativeExponent (exponent : Int)
  | overflow (op : Operator)

def Fault.exact : Fault → ExactFault
  | divisionByZero => .divisionByZero
  | negativeRadicand a => .negativeRadicand a.toInt
  | negativeExponent a => .negativeExponent a.toInt
  | overflow op => .overflow op

def exactly : Except Fault Int64 → Except ExactFault Int
  | .ok value => .ok value.toInt
  | .error fault => .error fault.exact

def Operator.bounded (op : Operator) (a b : Int) : Except ExactFault Int :=
  match op with
  | .add => fits (a + b)
  | .sub => fits (a - b)
  | .mul => fits (a * b)
  | .div =>
    if b = 0 then .error .divisionByZero
    else if a = -2 ^ 63 ∧ b = -1 then .error (.overflow .div)
    else .ok (a.tdiv b)
  | .rem => if b = 0 then .error .divisionByZero else .ok (a - b * a.tdiv b)
  | .pow => if b < 0 then .error (.negativeExponent b) else fits (a ^ b.toNat)
where
  fits (n : Int) : Except ExactFault Int := if Checked.Fits n then .ok n else .error (.overflow op)

/-- The value on integers, or the first fault from left to right and from the
operands to the operator. -/
def Expr.bounded : Expr → Except ExactFault Int
  | .num value => .ok value.toInt
  | .sqrt operand => do
    let a ← operand.bounded
    if a < 0 then .error (.negativeRadicand a) else .ok a.toNat.sqrt
  | .binary op left right => do
    let a ← left.bounded
    let b ← right.bounded
    op.bounded a b

theorem exactly_fits (op : Operator) (n : Int) :
    exactly (Operator.apply.fits op (Checked.ofInt? n)) = Operator.bounded.fits op n := by
  unfold Operator.bounded.fits
  split
  · next hn =>
    have hsome := mt Checked.ofInt?_eq_none_iff.mp (not_not_intro hn)
    obtain ⟨v, hv⟩ := Option.ne_none_iff_exists'.mp hsome
    rw [hv, ← Checked.ofInt?_eq_some_iff.mp hv]
    rfl
  · next hn =>
    rw [Checked.ofInt?_eq_none_iff.mpr hn]
    rfl

theorem Operator.exactly_apply (op : Operator) (a b : Int64) :
    exactly (op.apply a b) = op.bounded a.toInt b.toInt := by
  cases op with
  | add => simp only [apply, bounded, Checked.add_eq, exactly_fits]
  | sub => simp only [apply, bounded, Checked.sub_eq, exactly_fits]
  | mul => simp only [apply, bounded, Checked.mul_eq, exactly_fits]
  | div =>
    simp only [apply, bounded, Checked.eq_zero_iff, Checked.div_eq]
    split
    · rfl
    · rw [exactly_fits, bounded.fits]
      simp only [Checked.fits_tdiv_iff, ite_not]
  | rem =>
    simp only [apply, bounded, Checked.eq_zero_iff]
    split
    · rfl
    · exact congrArg Except.ok (Checked.toInt_rem a b)
  | pow =>
    simp only [apply, bounded, Checked.lt_zero_iff, Checked.pow_eq]
    split
    · rfl
    · exact exactly_fits ..

theorem Expr.exactly_value (e : Expr) : exactly e.value = e.bounded := by
  induction e with
  | num value => rfl
  | sqrt operand ih =>
    rw [value, bounded, ← ih]
    cases operand.value with
    | error fault => rfl
    | ok a =>
      cases h : Checked.sqrt a with
      | none =>
        have ha := Checked.sqrt_eq_none_iff.mp h
        simp [exactly, bind, Except.bind, h, ha, Fault.exact]
      | some root =>
        obtain ⟨ha, hroot⟩ := Checked.sqrt_eq_some_iff.mp h
        simp [exactly, bind, Except.bind, h, Int.not_lt.mpr ha, hroot]
  | binary op left right ihl ihr =>
    rw [value, bounded, ← ihl, ← ihr]
    cases left.value with
    | error fault => rfl
    | ok a =>
      cases right.value with
      | error fault => rfl
      | ok b => exact op.exactly_apply a b

-- ---------------------------------------------------------------------------
-- Values
-- ---------------------------------------------------------------------------

theorem Operator.apply_fits_eq_ok_iff {op : Operator} :
    apply.fits op (Checked.ofInt? n) = .ok v ↔ v.toInt = n := by
  rw [← Checked.ofInt?_eq_some_iff]
  cases Checked.ofInt? n <;> simp [apply.fits]

theorem Operator.apply_eq_ok_iff {op : Operator} {a b : Int64} :
    op.apply a b = .ok v ↔ op.Exact a.toInt b.toInt v.toInt := by
  cases op with
  | add => simp only [apply, Exact, Checked.add_eq, apply_fits_eq_ok_iff]
  | sub => simp only [apply, Exact, Checked.sub_eq, apply_fits_eq_ok_iff]
  | mul => simp only [apply, Exact, Checked.mul_eq, apply_fits_eq_ok_iff]
  | div =>
    simp only [apply, Exact, Checked.eq_zero_iff, Checked.div_eq]
    split <;> simp_all [apply_fits_eq_ok_iff]
  | rem =>
    simp only [apply, Exact, Checked.eq_zero_iff, ← Checked.toInt_rem, Int64.toInt_inj]
    split <;> simp_all [eq_comm]
  | pow =>
    simp only [apply, Exact, Checked.lt_zero_iff, Checked.pow_eq]
    split
    · next h => simp [h]
    · next h => simp [apply_fits_eq_ok_iff, Int.not_lt.mp h]

theorem Operator.Exact.unique {op : Operator} (h : op.Exact a b n) (h' : op.Exact a b n') :
    n = n' := by
  cases op with
  | add | sub | mul => exact Eq.trans h (Eq.symm h')
  | div | rem | pow => exact h.2.trans h'.2.symm

theorem exact_root {a n : Int} :
    n * n ≤ a ∧ a < (n + 1) * (n + 1) ↔ 0 ≤ a ∧ n = a.toNat.sqrt := by
  constructor
  · rintro ⟨hl, hu⟩
    have ha : 0 ≤ a := (mul_self_nonneg n).trans hl
    have hn : 0 ≤ n := by
      have hexpand : (n + 1) * (n + 1) = n * n + 2 * n + 1 := by ring
      omega
    lift a to Nat using ha
    lift n to Nat using hn
    refine ⟨Int.natCast_nonneg a, ?_⟩
    rw [Int.toNat_natCast, Nat.cast_inj, Nat.eq_sqrt]
    exact ⟨by exact_mod_cast hl, by exact_mod_cast hu⟩
  · rintro ⟨ha, rfl⟩
    lift a to Nat using ha
    rw [Int.toNat_natCast]
    exact ⟨by exact_mod_cast Nat.sqrt_le a, by exact_mod_cast Nat.lt_succ_sqrt a⟩

namespace Expr

theorem Exact.unique {e : Expr} (h : e.Exact n) (h' : e.Exact n') : n = n' := by
  induction e generalizing n n' with
  | num value => exact Eq.trans h (Eq.symm h')
  | sqrt operand ih =>
    obtain ⟨a, ha, hn⟩ := h
    obtain ⟨a', ha', hn'⟩ := h'
    obtain rfl := ih ha ha'
    rw [(exact_root.mp hn).2, (exact_root.mp hn').2]
  | binary op left right ihl ihr =>
    obtain ⟨a, b, ha, hb, hn⟩ := h
    obtain ⟨a', b', ha', hb', hn'⟩ := h'
    obtain rfl := ihl ha ha'
    obtain rfl := ihr hb hb'
    exact hn.unique hn'

theorem value_sqrt_eq_ok_iff {v : Int64} :
    (sqrt operand).value = .ok v ↔ ∃ a, operand.value = .ok a ∧
      v.toInt * v.toInt ≤ a.toInt ∧ a.toInt < (v.toInt + 1) * (v.toInt + 1) := by
  simp only [exact_root, ← Checked.sqrt_eq_some_iff]
  rw [value]
  cases operand.value with
  | error fault => simp [bind, Except.bind]
  | ok a =>
    simp only [bind, Except.bind, Except.ok.injEq, exists_eq_left']
    cases Checked.sqrt a <;> simp

theorem value_binary_eq_ok_iff :
    (binary op left right).value = .ok v ↔ ∃ a b, left.value = .ok a ∧ right.value = .ok b ∧
      op.Exact a.toInt b.toInt v.toInt := by
  simp only [← Operator.apply_eq_ok_iff]
  rw [value]
  cases left.value with
  | error fault => simp [bind, Except.bind]
  | ok a => cases right.value <;> simp [bind, Except.bind]

/-- Every part has a value that fits. -/
def Defined (e : Expr) : Prop := ∀ part ∈ e.parts, ∃ n, part.Exact n ∧ Checked.Fits n

theorem self_mem_parts (e : Expr) : e ∈ e.parts := by
  cases e <;> simp [parts]

theorem exact_of_value {e : Expr} (h : e.value = .ok v) : e.Defined ∧ e.Exact v.toInt := by
  induction e generalizing v with
  | num value =>
    cases h
    refine ⟨?_, rfl⟩
    rintro _ ⟨⟩
    · exact ⟨_, rfl, Checked.fits_toInt _⟩
    · contradiction
  | sqrt operand ih =>
    obtain ⟨a, ha, hn⟩ := value_sqrt_eq_ok_iff.mp h
    obtain ⟨hdefined, hexact⟩ := ih ha
    have hroot : (sqrt operand).Exact v.toInt := ⟨_, hexact, hn⟩
    refine ⟨?_, hroot⟩
    rintro _ ⟨⟩
    · exact ⟨_, hroot, Checked.fits_toInt v⟩
    · next hp => exact hdefined _ hp
  | binary op left right ihl ihr =>
    obtain ⟨a, b, ha, hb, hn⟩ := value_binary_eq_ok_iff.mp h
    obtain ⟨hl, hexactl⟩ := ihl ha
    obtain ⟨hr, hexactr⟩ := ihr hb
    have hresult : (binary op left right).Exact v.toInt := ⟨_, _, hexactl, hexactr, hn⟩
    refine ⟨?_, hresult⟩
    rintro _ ⟨⟩
    · exact ⟨_, hresult, Checked.fits_toInt v⟩
    · next hp => exact (List.mem_append.mp hp).elim (hl _) (hr _)

theorem Defined.exists_exact {e : Expr} (h : e.Defined) : ∃ v : Int64, e.Exact v.toInt := by
  obtain ⟨n, hn, hfits⟩ := h e e.self_mem_parts
  exact ⟨Int64.ofInt n, by rwa [Int64.toInt_ofInt_of_le hfits.1 hfits.2]⟩

theorem value_of_exact {e : Expr} (hd : e.Defined) (h : e.Exact v.toInt) : e.value = .ok v := by
  induction e generalizing v with
  | num n => rw [Int64.toInt_inj.mp h, value]
  | sqrt operand ih =>
    have hdefined : operand.Defined := fun part hp => hd part (by simp [parts, hp])
    obtain ⟨a, ha⟩ := hdefined.exists_exact
    obtain ⟨n, hn, hroot⟩ := h
    obtain rfl := hn.unique ha
    exact value_sqrt_eq_ok_iff.mpr ⟨a, ih hdefined ha, hroot⟩
  | binary op left right ihl ihr =>
    have hl : left.Defined := fun part hp => hd part (by simp [parts, hp])
    have hr : right.Defined := fun part hp => hd part (by simp [parts, hp])
    obtain ⟨a, ha⟩ := hl.exists_exact
    obtain ⟨b, hb⟩ := hr.exists_exact
    obtain ⟨m, n, hm, hn, hresult⟩ := h
    obtain rfl := hm.unique ha
    obtain rfl := hn.unique hb
    exact value_binary_eq_ok_iff.mpr ⟨a, b, ihl hl ha, ihr hr hb, hresult⟩

theorem value_exact (e : Expr) :
    exactly e.value = e.bounded ∧
    ∀ v, e.value = .ok v ↔
      (∀ part ∈ e.parts, ∃ n, part.Exact n ∧ Checked.Fits n) ∧ e.Exact v.toInt :=
  ⟨e.exactly_value, fun _ => ⟨exact_of_value, fun h => value_of_exact h.1 h.2⟩⟩

end Expr

end Abacus
