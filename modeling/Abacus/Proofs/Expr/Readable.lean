import Abacus.Proofs.RoundTrip

/-! Reading a text back would not show whose it is, since a deep or a negative
expression is refused. Its tokens do: each expression opens with a token that tells
its kind, and where one ends does not depend on what follows. -/

namespace Abacus

namespace Token

theorem ofNat_inj : ofNat m = ofNat n ↔ m = n := by
  constructor
  · intro h
    have hdigits : Nat.toDigits 10 m = Nat.toDigits 10 n :=
      String.ofList_injective (congrArg lexeme h)
    calc
      m = Nat.ofDigitChars 10 (Nat.toDigits 10 m) 0 := Nat.ofDigitChars_ten_toDigits.symm
      _ = Nat.ofDigitChars 10 (Nat.toDigits 10 n) 0 := by rw [hdigits]
      _ = n := Nat.ofDigitChars_ten_toDigits
  · exact congrArg ofNat

theorem ofOperator_inj : ofOperator op = ofOperator op' ↔ op = op' := by
  cases op <;> cases op' <;> simp [ofOperator, minus]

theorem minus_ne_ofNat : minus ≠ ofNat n := by
  simp [minus, ofNat]

end Token

namespace Expr

variable {v w : Int64} {rest rest' : List Token}

theorem head_tokens_num (h : (num v).tokens ++ rest = t :: rest') :
    t.kind = .sumOp ∨ t.kind = .number := by
  simp only [tokens] at h
  split at h <;> obtain ⟨rfl, -⟩ := List.cons.inj h
  · exact .inl rfl
  · exact .inr rfl

theorem tokens_num_append_inj (h : (num v).tokens ++ rest = (num w).tokens ++ rest') :
    v = w ∧ rest = rest' := by
  rw [← Int64.toInt_inj]
  simp only [tokens] at h
  -- The sign tells which of the two numbers with these digits it is.
  split at h <;> split at h
  · simp only [List.cons_append, List.nil_append, List.cons.injEq, true_and, Token.ofNat_inj] at h
    exact ⟨by omega, h.2⟩
  · exact absurd (List.cons.inj h).1 Token.minus_ne_ofNat
  · exact absurd (List.cons.inj h).1.symm Token.minus_ne_ofNat
  · simp only [List.cons_append, List.nil_append, List.cons.injEq, Token.ofNat_inj] at h
    exact ⟨by omega, h.2⟩

theorem tokens_append_inj {a b : Expr} (h : a.tokens ++ rest = b.tokens ++ rest') :
    a = b ∧ rest = rest' := by
  -- the rest is general, as each operand has the remainder of the whole behind it
  induction a generalizing b rest rest' with
  | num v =>
    cases b with
    | num w =>
      obtain ⟨rfl, rfl⟩ := tokens_num_append_inj h
      exact ⟨rfl, rfl⟩
    | sqrt | binary => exact absurd (head_tokens_num h) (by decide)
  | sqrt operand ih =>
    cases b with
    | num w => exact absurd (head_tokens_num h.symm) (by decide)
    | sqrt operand' =>
      simp only [tokens, List.cons_append, List.append_assoc, List.cons.injEq, true_and] at h
      obtain ⟨rfl, hrest⟩ := ih h
      exact ⟨rfl, (List.cons.inj hrest).2⟩
    | binary => exact absurd (List.cons.inj h).1 (by decide)
  | binary op left right ihl ihr =>
    cases b with
    | num w => exact absurd (head_tokens_num h.symm) (by decide)
    | sqrt => exact absurd (List.cons.inj h).1 (by decide)
    | binary op' left' right' =>
      simp only [tokens, List.cons_append, List.append_assoc, List.cons.injEq, true_and] at h
      obtain ⟨rfl, hmid⟩ := ihl h
      obtain ⟨hop, hright⟩ := List.cons.inj hmid
      obtain rfl := Token.ofOperator_inj.mp hop
      obtain ⟨rfl, hrest⟩ := ihr hright
      exact ⟨rfl, (List.cons.inj hrest).2⟩

/-- The text of an expression identifies it. -/
theorem written_inj {a b : Expr} : a.written = b.written ↔ a = b := by
  constructor
  · intro h
    have htokens := a.tokenize_written
    rw [h, b.tokenize_written, Except.ok.injEq] at htokens
    exact (tokens_append_inj (congrArg (· ++ []) htokens.symm)).1
  · rintro rfl
    rfl

end Expr

end Abacus
