import Abacus.Expr.Value
import Abacus.Proofs.Arithmetic.CheckedLaws

/-!
# Powers and the loop behind them

The bases 0, 1 and -1 are answered without the loop of products, but as the loop
would (`plainPower`). With any other base it leaves the range or ends within 64
products (`counted_le`).
-/

namespace Abacus

/-- From 1, multiply by the base so many times, up to the first product that
does not fit. -/
def Operator.plainPower (base : Int64) : Nat → Except Fault Int64
  | 0 => .ok 1
  | n + 1 => do
    let product ← plainPower base n
    apply.fits .pow (Checked.mul product base)

namespace Checked

/-- `mulTimes` and the number of products it works out. -/
def counted (base : Int64) : Nat → Int64 → Option Int64 × Nat
  | 0, product => (some product, 0)
  | n + 1, product =>
    match mul product base with
    | none => (none, 1)
    | some product => let (result, count) := counted base n product; (result, count + 1)

theorem counted_fst (base : Int64) (n : Nat) (product : Int64) :
    (counted base n product).1 = mulTimes base n product := by
  induction n generalizing product with
  | zero => rfl
  | succ n ih =>
    unfold counted mulTimes
    cases mul product base with
    | none => rfl
    | some next => exact ih next

theorem le_of_two_pow_le {v : Int64} (h : 2 ^ k ≤ v.toInt.natAbs) : k ≤ 63 := by
  have hfits := fits_toInt v
  have habs : v.toInt.natAbs ≤ 2 ^ 63 := by
    unfold Fits at hfits
    omega
  exact (Nat.pow_le_pow_iff_right (by decide)).mp (h.trans habs)

theorem counted_le {base product : Int64} (hb : 2 ≤ base.toInt.natAbs)
    (hp : 2 ^ k ≤ product.toInt.natAbs) (n : Nat) : (counted base n product).2 + k ≤ 64 := by
  have hk := le_of_two_pow_le hp
  -- `k` doublings are behind the product, and each further product adds one
  induction n generalizing product k with
  | zero => exact (Nat.zero_add k).trans_le (hk.trans (by decide))
  | succ n ih =>
    unfold counted
    cases hm : mul product base with
    | none => exact (Nat.add_comm 1 k).trans_le (Nat.succ_le_succ hk)
    | some next =>
      rw [mul_eq, ofInt?_eq_some_iff] at hm
      have hnext : 2 ^ (k + 1) ≤ next.toInt.natAbs := by
        rw [hm, Int.natAbs_mul, Nat.pow_succ]
        exact Nat.mul_le_mul hp hb
      have hle := ih hnext (le_of_two_pow_le hnext)
      simp only
      omega

-- The range reaches one power of -2 further down than it does up.
example : (counted (-2) 64 1).2 = 64 ∧ (counted 2 64 1).2 = 63 := by decide +kernel

theorem pow_eq_mulTimes {base : Int64} (hb : 2 ≤ base.toInt.natAbs) (n : Nat) :
    pow base n = mulTimes base n 1 := by
  rw [pow_eq, mulTimes_eq hb, Int64.toInt_one, one_mul]

theorem not_fits_pow_succ (h : ¬ Fits (b ^ n)) : ¬ Fits (b ^ (n + 1)) := by
  rw [pow_succ]
  refine not_fits_mul h (Nat.lt_of_not_le fun hb => h ?_)
  have habs : (b ^ n).natAbs ≤ 1 := by
    rw [Int.natAbs_pow]
    exact (Nat.pow_le_pow_left hb n).trans_eq (one_pow n)
  unfold Fits
  omega

end Checked

namespace Operator

theorem plainPower_eq (base : Int64) (n : Nat) :
    plainPower base n = apply.fits .pow (Checked.ofInt? (base.toInt ^ n)) := by
  induction n with
  | zero =>
    rw [pow_zero]
    rfl
  | succ n ih =>
    rw [plainPower, ih]
    cases hp : Checked.ofInt? (base.toInt ^ n) with
    | none =>
      have hout := Checked.not_fits_pow_succ (Checked.ofInt?_eq_none_iff.mp hp)
      rw [Checked.ofInt?_eq_none_iff.mpr hout]
      rfl
    | some product =>
      rw [pow_succ, ← Checked.ofInt?_eq_some_iff.mp hp, ← Checked.mul_eq]
      rfl

/-- The answers given without the loop are those of the loop. With a base of at
least two in size it is the loop that answers, after 64 products at most,
whatever the exponent. -/
theorem apply_pow_eq_plainPower (base exponent : Int64) (he : 0 ≤ exponent) :
    pow.apply base exponent = plainPower base exponent.toInt.toNat ∧
    (2 ≤ base.toInt.natAbs → ∀ n,
      Checked.pow base n = Checked.mulTimes base n 1 ∧
      ∃ count ≤ 64, Checked.counted base n 1 = (Checked.mulTimes base n 1, count)) := by
  have happly : pow.apply base exponent =
      apply.fits .pow (Checked.pow base exponent.toInt.toNat) := if_neg (Int64.not_lt.mpr he)
  refine ⟨?_, fun hb n => ⟨Checked.pow_eq_mulTimes hb n, (Checked.counted base n 1).2, ?_, ?_⟩⟩
  · rw [happly, plainPower_eq, Checked.pow_eq]
  · exact Checked.counted_le (k := 0) hb (by decide) n
  · rw [← Checked.counted_fst]

theorem apply_pow_eq_plainPower_greatest_exponent :
    0 ≤ Int64.maxValue ∧ plainPower (-1) (2 ^ 63 - 1) = .ok (-1) ∧
      plainPower (-2) (2 ^ 63 - 1) = .error (.overflow .pow) ∧
      2 ≤ (-2 : Int64).toInt.natAbs ∧
      ∃ count ≤ 64, Checked.counted (-2) (2 ^ 63 - 1) 1 =
        (Checked.mulTimes (-2) (2 ^ 63 - 1) 1, count) := by
  have he : 0 ≤ Int64.maxValue := by decide
  have hb : 2 ≤ (-2 : Int64).toInt.natAbs := by decide
  obtain ⟨hminus, -⟩ := apply_pow_eq_plainPower (-1) Int64.maxValue he
  obtain ⟨hover, hcount⟩ := apply_pow_eq_plainPower (-2) Int64.maxValue he
  have hone : pow.apply (-1) Int64.maxValue = .ok (-1) := by decide +kernel
  have htwo : pow.apply (-2) Int64.maxValue = .error (.overflow .pow) := by decide +kernel
  exact ⟨he, hminus.symm.trans hone, hover.symm.trans htwo, hb, (hcount hb _).2⟩

end Operator

end Abacus
