import Mathlib.Data.Nat.Sqrt
import Mathlib.Tactic.Ring
import Abacus.Checked

/-!
# Checked operations are exact

Each checked operation is the operation on unbounded integers, kept if the
result has 64 bits. Only powers need an argument: a product that has left the
range cannot come back.
-/

namespace Abacus

namespace Checked

/-- The integer is one of the 64-bit signed integers. -/
def Fits (n : Int) : Prop := -2 ^ 63 ≤ n ∧ n < 2 ^ 63

instance : DecidablePred Fits := fun n => inferInstanceAs (Decidable (-2 ^ 63 ≤ n ∧ n < 2 ^ 63))

theorem fits_toInt (v : Int64) : Fits v.toInt := ⟨v.le_toInt, v.toInt_lt⟩

theorem eq_zero_iff {a : Int64} : a = 0 ↔ a.toInt = 0 := by
  rw [← Int64.toInt_inj, Int64.toInt_zero]

theorem lt_zero_iff {a : Int64} : a < 0 ↔ a.toInt < 0 := by
  rw [Int64.lt_iff_toInt_lt, Int64.toInt_zero]

theorem nonneg_iff {a : Int64} : 0 ≤ a ↔ 0 ≤ a.toInt := by
  rw [Int64.le_iff_toInt_le, Int64.toInt_zero]

theorem ofInt?_eq (n : Int) : ofInt? n = if Fits n then some (Int64.ofInt n) else none := by
  have hmax : n ≤ Int64.maxValue.toInt ↔ n < 2 ^ 63 := Int.le_sub_one_iff (m := n) (n := 2 ^ 63)
  unfold ofInt?
  congr 1
  exact propext (and_congr_right' hmax)

theorem ofInt?_eq_some_iff : ofInt? n = some v ↔ v.toInt = n := by
  rw [ofInt?_eq]
  constructor
  · intro h
    split at h
    · next hn =>
      cases h
      exact Int64.toInt_ofInt_of_le hn.1 hn.2
    · cases h
  · rintro rfl
    rw [if_pos (fits_toInt v), Int64.ofInt_toInt]

theorem ofInt?_eq_none_iff : ofInt? n = none ↔ ¬ Fits n := by
  simp [ofInt?_eq]

theorem eq_ofInt? {v : Int64} (h : v.toInt = n) : some v = ofInt? n :=
  (ofInt?_eq_some_iff.mpr h).symm

theorem unless_overflow {v : Int64} (hout : overflow = true → ¬ Fits n)
    (hin : ¬ overflow = true → v.toInt = n) :
    (if overflow = true then none else some v) = ofInt? n := by
  split
  · next h => exact (ofInt?_eq_none_iff.mpr (hout h)).symm
  · next h => exact eq_ofInt? (hin h)

theorem add_eq (a b : Int64) : add a b = ofInt? (a.toInt + b.toInt) := by
  refine unless_overflow (fun h => ?_) BitVec.toInt_add_of_not_saddOverflow
  simp only [BitVec.saddOverflow, Bool.or_eq_true, decide_eq_true_eq] at h
  unfold Fits Int64.toInt
  omega

theorem sub_eq (a b : Int64) : sub a b = ofInt? (a.toInt - b.toInt) := by
  refine unless_overflow (fun h => ?_) BitVec.toInt_sub_of_not_ssubOverflow
  simp only [BitVec.ssubOverflow, Bool.or_eq_true, decide_eq_true_eq] at h
  unfold Fits Int64.toInt
  omega

theorem mul_eq (a b : Int64) : mul a b = ofInt? (a.toInt * b.toInt) := by
  refine unless_overflow (fun h => ?_) BitVec.toInt_mul_of_not_smulOverflow
  simp only [BitVec.smulOverflow, Bool.or_eq_true, decide_eq_true_eq] at h
  unfold Fits Int64.toInt
  omega

theorem sdivOverflow_iff {a b : Int64} :
    a.toBitVec.sdivOverflow b.toBitVec = true ↔ a = Int64.minValue ∧ b = -1 := by
  rw [BitVec.sdivOverflow_eq, ← Int64.toBitVec_inj, ← Int64.toBitVec_inj]
  simp only [Bool.and_eq_true, decide_eq_true_eq]
  exact and_congr_left' (and_iff_right (by decide))

theorem div_eq (a b : Int64) : div a b = ofInt? (a.toInt.tdiv b.toInt) := by
  refine unless_overflow (fun h => ?_) fun h => ?_
  · obtain ⟨rfl, rfl⟩ := sdivOverflow_iff.mp h
    decide
  · rw [sdivOverflow_iff, not_and_or] at h
    rcases h with ha | hb
    · exact Int64.toInt_div_of_ne_left a b ha
    · exact Int64.toInt_div_of_ne_right a b hb

theorem fits_tdiv_iff (a b : Int64) :
    Fits (a.toInt.tdiv b.toInt) ↔ ¬ (a.toInt = -2 ^ 63 ∧ b.toInt = -1) := by
  have hdiv : div a b = none ↔ a = Int64.minValue ∧ b = -1 := by simp [div, sdivOverflow_iff]
  rw [div_eq, ofInt?_eq_none_iff, ← Int64.toInt_inj, ← Int64.toInt_inj] at hdiv
  exact not_iff_comm.mp hdiv |>.symm

theorem toInt_rem (a b : Int64) : (a % b).toInt = a.toInt - b.toInt * a.toInt.tdiv b.toInt := by
  rw [Int64.toInt_mod, Int.tmod_def]

theorem not_fits_mul (hx : ¬ Fits x) (hb : 2 ≤ b.natAbs) : ¬ Fits (x * b) := by
  have habs : 2 ^ 63 * 2 ≤ x.natAbs * b.natAbs := Nat.mul_le_mul (by unfold Fits at hx; omega) hb
  rw [← Int.natAbs_mul] at habs
  unfold Fits
  omega

theorem not_fits_mul_pow (hx : ¬ Fits x) (hb : 2 ≤ b.natAbs) : ¬ Fits (x * b ^ n) := by
  induction n with
  | zero => simpa using hx
  | succ n ih =>
    rw [pow_succ, ← mul_assoc]
    exact not_fits_mul ih hb

theorem mulTimes_eq {base : Int64} (hb : 2 ≤ base.toInt.natAbs) :
    mulTimes base n product = ofInt? (product.toInt * base.toInt ^ n) := by
  induction n generalizing product with
  | zero => exact eq_ofInt? (by simp)
  | succ n ih =>
    rw [pow_succ', ← mul_assoc]
    simp only [mulTimes, mul_eq]
    cases hm : ofInt? (product.toInt * base.toInt) with
    | none =>
      have hout := not_fits_mul_pow (n := n) (ofInt?_eq_none_iff.mp hm) hb
      exact (ofInt?_eq_none_iff.mpr hout).symm
    | some next =>
      rw [← ofInt?_eq_some_iff.mp hm]
      exact ih

theorem two_le_natAbs {base : Int64} (h0 : base ≠ 0) (h1 : base ≠ 1) (hm : base ≠ -1) :
    2 ≤ base.toInt.natAbs := by
  rw [Ne, ← Int64.toInt_inj] at h0 h1 hm
  have hneg : (-1 : Int64).toInt = -1 := rfl
  rw [Int64.toInt_zero] at h0
  rw [Int64.toInt_one] at h1
  omega

theorem pow_eq (base : Int64) (n : Nat) : pow base n = ofInt? (base.toInt ^ n) := by
  by_cases h1 : base = 1
  · subst h1
    exact eq_ofInt? (one_pow n).symm
  by_cases hm : base = -1
  · subst hm
    refine eq_ofInt? ?_
    split
    · next heven => exact (Even.neg_one_pow (Nat.even_iff.mpr heven)).symm
    · next hodd => exact (Odd.neg_one_pow (Nat.odd_iff.mpr (by omega))).symm
  by_cases h0 : base = 0
  · subst h0
    cases n with
    | zero => rfl
    | succ n => exact eq_ofInt? (zero_pow n.succ_ne_zero).symm
  · simp [pow, h0, h1, hm, mulTimes_eq (two_le_natAbs h0 h1 hm)]

theorem rootDigits_eq (hn : n < 4 ^ digits) : rootDigits digits n = n.sqrt := by
  induction digits generalizing n with
  | zero =>
    obtain rfl : n = 0 := by omega
    rfl
  | succ digits ih =>
    have hq : n / 4 < 4 ^ digits := by omega
    rw [rootDigits, ih hq, Nat.eq_sqrt]
    have hl := Nat.sqrt_le (n / 4)
    have hu : n / 4 < ((n / 4).sqrt + 1) * ((n / 4).sqrt + 1) := Nat.lt_succ_sqrt (n / 4)
    generalize (n / 4).sqrt = s at hl hu
    have hlow : 2 * s * (2 * s) = 4 * (s * s) := by ring
    have hhigh : (2 * s + 1 + 1) * (2 * s + 1 + 1) = 4 * ((s + 1) * (s + 1)) := by ring
    split
    · next h => exact ⟨h, by omega⟩
    · next h => exact ⟨by omega, by omega⟩

theorem sqrt_eq_none_iff : sqrt a = none ↔ a.toInt < 0 := by
  simp [sqrt, lt_zero_iff]

theorem sqrt_eq_some_iff : sqrt a = some v ↔ 0 ≤ a.toInt ∧ v.toInt = a.toInt.toNat.sqrt := by
  unfold sqrt
  split
  · next h => simp [Int.not_le.mpr (lt_zero_iff.mp h)]
  · next h =>
    rw [lt_zero_iff] at h
    have hlt := a.toInt_lt
    have hn : a.toInt.toNat < 4 ^ 32 := by omega
    have hroot : a.toInt.toNat.sqrt < 2 ^ 63 := (Nat.sqrt_le_self _).trans_lt (by omega)
    rw [rootDigits_eq hn, Option.some_inj, ← Int64.toInt_inj, Int64.toInt_ofNat_of_lt hroot]
    simp [Int.not_lt.mp h, eq_comm]

end Checked

end Abacus
