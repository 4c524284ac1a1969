import Abacus.Proofs.Token.StreamLaws

/-!
# Calls of a token stream

A stream gives its tokens, then the error if there is one, and is spent from then
on: after an error by the flag, at the end of the text because nothing is left to
skip or to look at.
-/

namespace Abacus

theorem Cursor.At.eq_at_end {c : Cursor α} {before : List α} (h : c.At before [] []) :
    c = ⟨before.toArray, [], before.length, before.length⟩ := by
  obtain ⟨held, source, pos, anchor⟩ := c
  obtain ⟨hitems, hanchor, hpos, hheld⟩ := h
  have hlength := congrArg List.length hitems
  simp only [List.append_nil, List.length_append, Array.length_toList, List.length_nil] at *
  obtain rfl : source = [] := List.eq_nil_of_length_eq_zero (by omega)
  rw [List.append_nil] at hitems
  simp [← hitems, hanchor, hpos]

namespace TokenStream

def after : Nat → TokenStream → TokenStream
  | 0, s => s
  | n + 1, s => after n s.next.2

/-- The answers of the calls that have one: the tokens and then the error. -/
def answers (tokens : List Token) (error? : Option LexicalError) :
    List (Option (Except LexicalError Token)) :=
  tokens.map (some <| .ok ·) ++ error?.toList.map (some <| .error ·)

def outcome (tokens : List Token) : Option LexicalError → Except LexicalError (List Token)
  | none => .ok tokens
  | some e => .error e

/-- A call answers `none` and changes nothing. -/
def Spent (s : TokenStream) : Prop := s.next = (none, s)

/-- Call by call the stream gives these tokens and then the error if there is
one. The call after the last token leaves it spent. -/
inductive Gives : TokenStream → List Token → Option LexicalError → Prop
  | done : s.next = (none, t) → t.Spent → Gives s [] none
  | error : s.next = (some (.error e), t) → t.Spent → Gives s [] (some e)
  | token : s.next = (some (.ok x), t) → Gives t tokens error? → Gives s (x :: tokens) error?

variable {s t : TokenStream} {tokens : List Token} {error? : Option LexicalError}
  {c d : Cursor Char} {before chars : List Char}

theorem map_outcome (x : Token) :
    (outcome tokens error?).map (x :: ·) = outcome (x :: tokens) error? := by
  cases error? <;> rfl

theorem Spent.pull (h : s.Spent) (n : Nat) : s.pull n = List.replicate n none := by
  induction n with
  | zero => rfl
  | succ n ih => rw [TokenStream.pull, h, List.replicate_succ, ← ih]

theorem Spent.after (h : s.Spent) (n : Nat) : s.after n = s := by
  induction n with
  | zero => rfl
  | succ n ih => rw [TokenStream.after, h, ih]

namespace Gives

theorem pull (h : Gives s tokens error?) (hspare : calls ≤ spare) :
    s.pull calls = (answers tokens error? ++ List.replicate spare none).take calls := by
  induction h generalizing calls with
  | done hnext hspent | error hnext hspent =>
    cases calls with
    | zero => rfl
    | succ n =>
      rw [TokenStream.pull, hnext]
      simp [answers, hspent.pull, List.take_replicate, ← List.replicate_succ]
      omega
  | token hnext _ ih =>
    cases calls with
    | zero => rfl
    | succ n =>
      rw [TokenStream.pull, hnext]
      simp [answers, ih (Nat.le_of_succ_le hspare)]

theorem after (h : Gives s tokens error?) (more : Nat) :
    s.after (tokens.length + 1 + more) = s.after (tokens.length + 1) := by
  induction h with
  | done hnext hspent | error hnext hspent =>
    rw [List.length_nil, Nat.zero_add, Nat.add_comm, TokenStream.after, TokenStream.after, hnext]
    exact hspent.after more
  | token hnext _ ih =>
    rw [List.length_cons, Nat.add_right_comm _ 1 more, TokenStream.after, TokenStream.after, hnext]
    exact ih

theorem collect (h : Gives s tokens error?) (hbound : tokens.length < bound) :
    s.collect bound = outcome tokens error? := by
  induction h generalizing bound with
  | done hnext | error hnext =>
    obtain ⟨bound, rfl⟩ := Nat.exists_eq_add_one_of_ne_zero (Nat.ne_zero_of_lt hbound)
    rw [TokenStream.collect, hnext]
    rfl
  | token hnext _ ih =>
    obtain ⟨bound, rfl⟩ := Nat.exists_eq_add_one_of_ne_zero (Nat.ne_zero_of_lt hbound)
    rw [TokenStream.collect, hnext, ← map_outcome]
    simp only [ih (Nat.lt_of_succ_lt_succ hbound)]

end Gives

theorem next_of_scan_token (h : scan c = (some (.ok x), d)) :
    next ⟨c, false⟩ = (some (.ok x), ⟨d, false⟩) := by
  simp [next, h]

theorem next_of_scan_error (h : scan c = (some (.error e), d)) :
    next ⟨c, false⟩ = (some (.error e), ⟨d, true⟩) := by
  simp [next, h]

theorem next_of_scan_end (h : scan c = (none, d)) : next ⟨c, false⟩ = (none, ⟨d, false⟩) := by
  simp [next, h]

theorem spent_of_failed (c : Cursor Char) : Spent ⟨c, true⟩ := rfl

theorem spent_of_end (h : c.At before [] []) : Spent ⟨c, false⟩ := by
  obtain ⟨d, hscan, hd⟩ := Token.stream_done h Text.isBlank_nil
  rw [List.append_nil] at hd
  obtain rfl : c = d := h.eq_at_end.trans hd.eq_at_end.symm
  exact next_of_scan_end hscan

theorem gives_of_tokenizes (h : Token.Tokenizes chars answer) (hat : c.At before [] chars) :
    ∃ tokens error?, Gives ⟨c, false⟩ tokens error? ∧ tokens.length ≤ chars.length := by
  induction h generalizing c before with
  | done hg =>
    obtain ⟨d, hscan, hd⟩ := Token.stream_done hat hg
    exact ⟨[], none, .done (next_of_scan_end hscan) (spent_of_end hd), Nat.zero_le _⟩
  | token hg hl hr _ ih =>
    obtain ⟨d, hscan, hd⟩ := Token.stream_token hat hg hl hr
    obtain ⟨tokens, error?, hgives, hle⟩ := ih hd
    have hpos := List.length_pos_iff.mpr hl.ne_nil
    refine ⟨_ :: tokens, error?, .token (next_of_scan_token hscan) hgives, ?_⟩
    simp only [List.length_cons, List.length_append]
    omega
  | unrecognized hg hu hr =>
    obtain ⟨d, hscan, -⟩ := Token.stream_unrecognized hat hg hu hr
    exact ⟨[], _, .error (next_of_scan_error hscan) (spent_of_failed d), Nat.zero_le _⟩

/-- However often the stream of a text is called, it gives no more tokens than
there are characters, then the error if there is one, then `none`. The tokens of
the text are these, unless there is the error. The call after the last token is
the last to change the stream, so nothing is pulled from the text after an
error. -/
theorem ofString_calls (text : String) :
    ∃ (tokens : List Token) (error? : Option LexicalError),
      tokens.length ≤ text.length ∧
      (∀ calls, (ofString text).pull calls =
        (answers tokens error? ++ List.replicate calls none).take calls) ∧
      Token.ofText text = outcome tokens error? ∧
      ∀ more, (ofString text).after (tokens.length + 1 + more) =
        (ofString text).after (tokens.length + 1) := by
  obtain ⟨answer, htext⟩ := Token.tokenizes text.toList
  obtain ⟨tokens, error?, hgives, hle⟩ := gives_of_tokenizes htext (Cursor.at_ofList text.toList)
  rw [String.length_toList] at hle
  exact ⟨tokens, error?, hle, fun calls => hgives.pull (Nat.le_refl calls),
    hgives.collect (Nat.lt_succ_of_le hle), hgives.after⟩

end TokenStream

end Abacus
