import Abacus.Numeral
import Abacus.Proofs.Arithmetic.CheckedLaws

/-! `Spells` relates a numeral to its integer without reading it: an optional sign and
then digits, the most significant first. -/

namespace Abacus

theorem Text.mem_digits_of_isDigit (h : c.isDigit = true) : c ∈ digits := by
  have hd : ∀ n < 58, 48 ≤ n → Char.ofNat n ∈ digits := by decide
  obtain ⟨hl, hu⟩ := Char.isDigit_iff_toNat.mp h
  have hc := hd c.toNat (Nat.lt_succ_of_le hu) hl
  rwa [Char.ofNat_toNat] at hc

namespace Numeral

/-- A run of decimal digits, at least one. -/
def IsDigits (text : List Char) : Prop := text ≠ [] ∧ ∀ c ∈ text, c ∈ Text.digits

/-- A numeral and the integer it stands for. -/
inductive Spells : List Char → Int → Prop
  | plain : IsDigits digits → Spells digits (Nat.ofDigitChars 10 digits 0)
  | plus : IsDigits digits → Spells ('+' :: digits) (Nat.ofDigitChars 10 digits 0)
  | minus : IsDigits digits → Spells ('-' :: digits) (-(Nat.ofDigitChars 10 digits 0))

theorem IsDigits.head (h : IsDigits (c :: text)) : c ∈ Text.digits := h.2 c (by simp)

theorem unsigned?_eq_some_iff :
    unsigned? text = some n ↔ IsDigits text ∧ Nat.ofDigitChars 10 text 0 = n := by
  simp [unsigned?, IsDigits, and_assoc]

theorem signed?_eq_some_iff : signed? text = some n ↔ Spells text n := by
  constructor
  · intro h
    unfold signed? at h
    split at h <;> simp only [Option.map_eq_some_iff, bind, Option.bind_eq_some_iff, pure,
      unsigned?_eq_some_iff] at h <;> obtain ⟨_, ⟨_, ⟨hd, rfl⟩, ⟨⟩⟩, rfl⟩ := h
    · exact .minus hd
    · exact .plus hd
    · exact .plain hd
  · rintro (hd | hd | hd)
    all_goals have hu := unsigned?_eq_some_iff.mpr ⟨hd, rfl⟩
    · unfold signed?
      split
      · exact absurd hd.head (by decide)
      · exact absurd hd.head (by decide)
      · simp [hu]
    · simp [signed?, hu]
    · simp [signed?, hu]

theorem read?_eq_some_iff : read? text = some v ↔ Spells text.toList v.toInt := by
  simp [read?, Option.bind_eq_some_iff, signed?_eq_some_iff, Checked.ofInt?_eq_some_iff]

theorem read?_of_isDigits {text : String} (h : IsDigits text.toList) :
    read? text = Checked.ofInt? (Nat.ofDigitChars 10 text.toList 0) := by
  rw [read?, signed?_eq_some_iff.mpr (.plain h), Option.bind_some]

theorem read?_eq_none_iff {text : String} (h : IsDigits text.toList) :
    read? text = none ↔ 2 ^ 63 ≤ Nat.ofDigitChars 10 text.toList 0 := by
  rw [read?_of_isDigits h, Checked.ofInt?_eq_none_iff, Checked.Fits]
  omega

theorem nonneg_of_read? {text : String} (h : IsDigits text.toList) (hv : read? text = some v) :
    0 ≤ v.toInt := by
  rw [read?_of_isDigits h, Checked.ofInt?_eq_some_iff] at hv
  rw [hv]
  exact Int.natCast_nonneg _

theorem ofDigitChars_zeros (n : Nat) (digits : List Char) :
    Nat.ofDigitChars 10 (List.replicate n '0' ++ digits) 0 = Nat.ofDigitChars 10 digits 0 := by
  induction n with
  | zero => rfl
  | succ n ih => rwa [List.replicate_succ, List.cons_append, Nat.ofDigitChars_cons]

theorem isDigits_toDigits (n : Nat) : IsDigits (Nat.toDigits 10 n) :=
  ⟨Nat.toDigits_ne_nil, fun _ hc =>
    Text.mem_digits_of_isDigit (Nat.isDigit_of_mem_toDigits (by decide) (by decide) hc)⟩

theorem spells_toDigits (n : Nat) : Spells (Nat.toDigits 10 n) n := by
  have h := Spells.plain (isDigits_toDigits n)
  rwa [Nat.ofDigitChars_ten_toDigits] at h

end Numeral

end Abacus
