import Abacus.Expr.Value

/-! An expression of the same value in the place of a number changes neither the value
of the whole nor the fault (`value_replace`). -/

namespace Abacus.Expr

def numbers : Expr → List Int64
  | .num value => [value]
  | .sqrt operand => operand.numbers
  | .binary _ left right => left.numbers ++ right.numbers

/-- This expression with another in the place of the number before which there are so many. -/
def replace : Expr → Nat → Expr → Expr
  | .num value, place, e => if place = 0 then e else .num value
  | .sqrt operand, place, e => .sqrt (operand.replace place e)
  | .binary op left right, place, e =>
    if place < left.numbers.length then .binary op (left.replace place e) right
    else .binary op left (right.replace (place - left.numbers.length) e)

theorem replace_binary_left (h : place < left.numbers.length) :
    (binary op left right).replace place e = binary op (left.replace place e) right :=
  if_pos h

theorem replace_binary_right :
    (binary op left right).replace (left.numbers.length + place) e =
      binary op left (right.replace place e) := by
  rw [replace, if_neg (by omega), Nat.add_sub_cancel_left]

theorem value_replace {a : Expr} (he : e.value = .ok v) (hv : a.numbers[place]? = some v) :
    (a.replace place e).value = a.value := by
  induction a generalizing place with
  | num value =>
    obtain ⟨rfl, rfl⟩ : place = 0 ∧ v = value := by
      cases place <;> simp_all [numbers]
    rw [replace, if_pos rfl, he, value]
  | sqrt operand ih => simp only [replace, value, ih hv]
  | binary op left right ihl ihr =>
    rcases Nat.lt_or_ge place left.numbers.length with hlt | hge
    · rw [numbers, List.getElem?_append_left hlt] at hv
      rw [replace_binary_left hlt, value, value, ihl hv]
    · obtain ⟨place, rfl⟩ := Nat.exists_eq_add_of_le hge
      rw [numbers, List.getElem?_append_right hge, Nat.add_sub_cancel_left] at hv
      rw [replace_binary_right, value, value, ihr hv]

end Abacus.Expr
