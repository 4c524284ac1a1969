import Abacus.Proofs.Expr.Numbers
import Abacus.Proofs.Grammar.Exact

/-!
# Groups in the place of numbers

A number is a group, and any other group can stand where it stands. The numbers
of the tree are those of the tokens from left to right (`Means.numbers`), so the
tree of the group goes to the leaf of the number it replaces (`substitute`).
-/

namespace Abacus.Grammar

theorem append_eq_append_cons (h : xs ++ ys = front ++ x :: back) :
    (∃ middle, xs = front ++ x :: middle ∧ back = middle ++ ys) ∨
      ∃ middle, front = xs ++ middle ∧ ys = middle ++ x :: back := by
  rcases List.append_eq_append_iff.mp h with ⟨middle, hfront, hys⟩ | ⟨middle, hxs, hback⟩
  · exact .inr ⟨middle, hfront, hys⟩
  · cases middle with
    | nil => exact .inr ⟨[], by simpa using hxs.symm, by simpa using hback.symm⟩
    | cons y middle =>
      obtain ⟨rfl, rfl⟩ := List.cons.inj hback
      exact .inl ⟨middle, hxs, rfl⟩

namespace Bracket

theorem numbers_wrap (b : Bracket) (e : Expr) : (b.wrap e).numbers = e.numbers := by
  cases b <;> rfl

theorem replace_wrap (b : Bracket) (a e : Expr) :
    (b.wrap a).replace place e = b.wrap (a.replace place e) := by
  cases b <;> rfl

theorem Opens.kind_ne_number {b : Bracket} (ho : b.Opens opening) :
    ∀ t ∈ opening, t.kind ≠ .number := by
  cases ho <;> simp_all

end Bracket

theorem Chain.kind_ne_number (rule : Chain level left kind right) : kind ≠ .number := by
  cases rule <;> exact nofun

namespace Derivation

theorem Means.numbers {d : Derivation level} (h : d.Means e) :
    e.numbers.map some = (d.tokens.filter (isKind .number)).map fun t => Numeral.read? t.lexeme := by
  induction d generalizing e with
  | number t ht =>
    obtain ⟨v, hv, rfl⟩ := h
    simp [Expr.numbers, tokens, isKind, ht, Numeral.read?_eq_some_iff.mpr hv]
  | bracket b opening ho body close hc ih =>
    obtain ⟨a, ha, rfl⟩ := h
    have hopening : opening.filter (isKind .number) = [] := by
      simpa [List.filter_eq_nil_iff, isKind] using ho.kind_ne_number
    simp [b.numbers_wrap, ih ha, tokens, hopening, isKind, hc]
  | operand rule d ih => exact ih h
  | binary rule l op hop r ihl ihr =>
    obtain ⟨a, operator, b, ha, ho, hb, rfl⟩ := h
    have hop' : isKind .number op = false := by simpa [isKind, hop] using rule.kind_ne_number
    simp [Expr.numbers, ihl ha, ihr hb, tokens, hop']

theorem Means.length_numbers {d : Derivation level} (h : d.Means e) :
    e.numbers.length = d.tokens.countP (isKind .number) := by
  have hl := congrArg List.length h.numbers
  simpa [List.countP_eq_length_filter] using hl

theorem substitute {d : Derivation level} {g : Derivation .group} (hd : d.tokens = p ++ n :: q)
    (hn : n.kind = .number) (hm : d.Means a) (hg : g.Means e) :
    ∃ d' : Derivation level, d'.tokens = p ++ (g.tokens ++ q) ∧
      d'.Means (a.replace (p.countP (isKind .number)) e) := by
  induction d generalizing p q a with
  | number t ht =>
    obtain ⟨v, hv, rfl⟩ := hm
    obtain ⟨rfl, rfl, rfl⟩ : p = [] ∧ t = n ∧ q = [] := by
      cases p <;> simp_all [tokens]
    exact ⟨g, by simp, hg⟩
  | bracket b opening ho body close hc ih =>
    obtain ⟨a, ha, rfl⟩ := hm
    rcases append_eq_append_cons hd with ⟨q, hfront, rfl⟩ | ⟨middle, rfl, hlast⟩
    · rcases append_eq_append_cons hfront with ⟨q, rfl, rfl⟩ | ⟨p, rfl, hbody⟩
      · exact absurd hn (ho.kind_ne_number n (by simp))
      · obtain ⟨body', ht, hm⟩ := ih hbody ha
        have hplace : opening.countP (isKind .number) = 0 := by
          simpa [List.countP_eq_zero] using ho.kind_ne_number
        refine ⟨.bracket b opening ho body' close hc, by simp [tokens, ht], _, hm, ?_⟩
        rw [b.replace_wrap, List.countP_append, hplace, Nat.zero_add]
    · obtain ⟨rfl, rfl, rfl⟩ : middle = [] ∧ close = n ∧ q = [] := by
        cases middle <;> simp_all
      rw [hc] at hn
      cases hn
  | operand rule d ih =>
    obtain ⟨d', ht, hm⟩ := ih hd hm
    exact ⟨.operand rule d', ht, hm⟩
  | binary rule l op hop r ihl ihr =>
    obtain ⟨x, operator, y, hx, ho, hy, rfl⟩ := hm
    rcases append_eq_append_cons hd with ⟨middle, hl, rfl⟩ | ⟨middle, rfl, hr⟩
    · obtain ⟨l', ht, hm⟩ := ihl hl hx
      have hplace : p.countP (isKind .number) < x.numbers.length := by
        simp [hx.length_numbers, hl, isKind, hn]
      refine ⟨.binary rule l' op hop r, by simp [tokens, ht], ?_⟩
      rw [Expr.replace_binary_left hplace]
      exact ⟨_, operator, y, hm, ho, hy, rfl⟩
    · cases middle with
      | nil =>
        obtain ⟨rfl, -⟩ := List.cons.inj hr
        exact absurd (hop.symm.trans hn) rule.kind_ne_number
      | cons _ p =>
        obtain ⟨rfl, hright⟩ := List.cons.inj hr
        obtain ⟨r', ht, hm⟩ := ihr hright hy
        have hop' : isKind .number op = false := by simpa [isKind, hop] using rule.kind_ne_number
        refine ⟨.binary rule l op hop r', by simp [tokens, ht], ?_⟩
        rw [List.countP_append, List.countP_cons_of_neg (by simp [hop']), ← hx.length_numbers,
          Expr.replace_binary_right]
        exact ⟨x, operator, _, hx, ho, hm, rfl⟩

end Derivation

/-- A number in an expression can be exchanged for another expression in
parentheses, unless that nests too deep. The tree changes at the leaf of that
number and nowhere else, and an inserted expression with the value of the
number does not change what the whole comes to. -/
theorem ofTokens_substitute (hn : n.kind = .number) (ho : o.kind = .openParen)
    (hc : c.kind = .closeParen) (ha : Expr.ofTokens (p ++ n :: q) = .ok a)
    (hb : Expr.ofTokens u = .ok b) :
    let place := p.countP (isKind .number)
    let outcome := Expr.ofTokens (p ++ o :: (u ++ c :: q))
    (outcome = .error (.tooDeep maxDepth) ∨ outcome = .ok (a.replace place b)) ∧
    a.numbers.map some =
      ((p ++ n :: q).filter (isKind .number)).map (fun t => Numeral.read? t.lexeme) ∧
    ∃ v, Numeral.read? n.lexeme = some v ∧ a.numbers[place]? = some v ∧
      (b.value = .ok v → (a.replace place b).value = a.value) := by
  obtain ⟨d, hd, -, hm⟩ := ofTokens_eq_ok_iff_means.mp ha
  obtain ⟨body, rfl, -, hbody⟩ := ofTokens_eq_ok_iff_means.mp hb
  have hgroup : (Derivation.bracket .paren [o] (.paren ho) body c hc).Means b := ⟨b, hbody, rfl⟩
  obtain ⟨d', hd', hm'⟩ := Derivation.substitute hd hn hm hgroup
  have htokens : d'.tokens = p ++ o :: (body.tokens ++ c :: q) := by
    simpa [Derivation.tokens] using hd'
  have hnumbers := hm.numbers
  rw [hd] at hnumbers
  refine ⟨?_, hnumbers, ?_⟩
  · rcases Nat.lt_or_ge maxDepth d'.nesting with hlt | hle
    · exact .inl (by rw [← htokens]; exact ofTokens_eq_tooDeep hm' hlt)
    · exact .inr (ofTokens_eq_ok_iff_means.mpr ⟨d', htokens, hle, hm'⟩)
  · have hleaf : (a.numbers.map some)[p.countP (isKind .number)]? =
        some (Numeral.read? n.lexeme) := by
      rw [hnumbers, List.countP_eq_length_filter]
      simp [List.filter_cons_of_pos, isKind, hn]
    rw [List.getElem?_map, Option.map_eq_some_iff] at hleaf
    obtain ⟨v, hv, hread⟩ := hleaf
    exact ⟨v, hread.symm, hv, fun hvalue => Expr.value_replace hvalue hv⟩

theorem substitute_one_plus_two_for_three :
    let number (digit : String) : Token := ⟨.number, digit⟩
    let before := [number "7", ⟨.sumOp, "-"⟩, number "2", ⟨.powerOp, "^"⟩]
    let sum := [number "1", ⟨.sumOp, "+"⟩, number "2"]
    let tree (exponent : Expr) := Expr.binary .sub (.num 7) (.binary .pow (.num 2) exponent)
    let three := Expr.binary .add (.num 1) (.num 2)
    let outcome := Expr.ofTokens (before ++ ⟨.openParen, "("⟩ :: (sum ++ [⟨.closeParen, ")"⟩]))
    Expr.ofTokens (before ++ [number "3"]) = .ok (tree (.num 3)) ∧
      Expr.ofTokens sum = .ok three ∧ three.value = .ok 3 ∧
      (outcome = .error (.tooDeep maxDepth) ∨ outcome = .ok (tree three)) ∧
      (tree three).value = (tree (.num 3)).value := by
  intro number before sum tree three outcome
  have ha : Expr.ofTokens (before ++ [number "3"]) = .ok (tree (.num 3)) := by decide +kernel
  have hb : Expr.ofTokens sum = .ok three := by decide +kernel
  have hthree : three.value = .ok 3 := by decide +kernel
  obtain ⟨houtcome, -, v, hread, -, hvalue⟩ :=
    ofTokens_substitute (n := number "3") (o := ⟨.openParen, "("⟩) (c := ⟨.closeParen, ")"⟩)
      rfl rfl rfl ha hb
  obtain rfl : v = 3 := Option.some.inj (hread.symm.trans (by decide +kernel))
  exact ⟨ha, hb, hthree, houtcome, hvalue hthree⟩

end Abacus.Grammar
