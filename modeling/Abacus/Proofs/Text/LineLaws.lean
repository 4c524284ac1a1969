import Abacus.Text.Lines
import Mathlib.Data.List.Basic

/-!
# Line laws

A text has the same lines whether it is cut before or after it is decoded, as no
other character has the byte of a newline in it. What the lines are is said by
`Splits`. A text that ends with a newline has no line in common with what follows.
-/

namespace Abacus.Text

section

variable {α : Type} {terminator : α}

/-- Nothing, or something with the terminator at its end. -/
def Terminated (terminator : α) (xs : List α) : Prop := xs = [] ∨ ∃ body, xs = body ++ [terminator]

theorem Terminated.of_append_cons (h : Terminated terminator (xs ++ terminator :: ys)) :
    Terminated terminator ys := by
  obtain h | ⟨body, h⟩ := h
  · simp at h
  · rcases List.eq_nil_or_concat ys with rfl | ⟨front, y, rfl⟩
    · exact .inl rfl
    · have hend : (xs ++ terminator :: front) ++ [y] = body ++ [terminator] := by simpa using h
      obtain ⟨-, hy⟩ := List.append_inj' hend rfl
      exact .inr ⟨front, by simpa using hy⟩

variable [DecidableEq α]

theorem chunks_append_terminator (h : terminator ∉ xs) (ys : List α) :
    chunks terminator (xs ++ terminator :: ys) = (xs ++ [terminator]) :: chunks terminator ys := by
  induction xs with
  | nil => simp [chunks]
  | cons x xs ih =>
    rw [List.mem_cons, not_or] at h
    simp [chunks, Ne.symm h.1, ih h.2]

theorem chunks_of_not_mem (h : terminator ∉ xs) (hne : xs ≠ []) :
    chunks terminator xs = [xs] := by
  induction xs with
  | nil => contradiction
  | cons x xs ih =>
    rw [List.mem_cons, not_or] at h
    cases xs with
    | nil => simp [chunks, Ne.symm h.1]
    | cons y ys => rw [chunks, if_neg (Ne.symm h.1), ih h.2 (by simp)]

/-- A sequence is a first line and more, a line without its terminator, or empty. -/
theorem chunk_induction (terminator : α) {motive : List α → Prop} (nil : motive [])
    (last : ∀ xs, terminator ∉ xs → xs ≠ [] → motive xs)
    (line : ∀ xs ys, terminator ∉ xs → motive ys → motive (xs ++ terminator :: ys))
    (xs : List α) : motive xs := by
  by_cases h : terminator ∈ xs
  · obtain ⟨first, rest, hxs, hfirst⟩ := List.eq_append_cons_of_mem h
    exact hxs ▸ line first rest hfirst (chunk_induction terminator nil last line rest)
  · by_cases hne : xs = []
    · exact hne ▸ nil
    · exact last xs h hne
termination_by xs.length
decreasing_by simp only [hxs, List.length_append, List.length_cons]; omega

theorem ne_nil_of_mem_chunks (h : chunk ∈ chunks terminator xs) : chunk ≠ [] := by
  induction xs using chunk_induction terminator with
  | nil => simp [chunks] at h
  | last xs hxs hne =>
    rw [chunks_of_not_mem hxs hne, List.mem_singleton] at h
    exact h ▸ hne
  | line xs ys hxs ih =>
    rw [chunks_append_terminator hxs, List.mem_cons] at h
    rcases h with rfl | h
    · simp
    · exact ih h

theorem Terminated.chunks_append (h : Terminated terminator xs) (ys : List α) :
    chunks terminator (xs ++ ys) = chunks terminator xs ++ chunks terminator ys := by
  induction xs using chunk_induction terminator with
  | nil => rfl
  | last xs hxs hne =>
    obtain rfl | ⟨body, rfl⟩ := h
    · contradiction
    · simp at hxs
  | line first rest hfirst ih =>
    rw [List.append_assoc, List.cons_append, chunks_append_terminator hfirst,
      chunks_append_terminator hfirst, ih h.of_append_cons, List.cons_append]

end

def encoded (text : List Char) : List UInt8 := text.flatMap String.utf8EncodeChar

@[simp] theorem encoded_append (a b : List Char) : encoded (a ++ b) = encoded a ++ encoded b :=
  List.flatMap_append

theorem encoded_newline (text : List Char) : encoded ('\n' :: text) = 10 :: encoded text := rfl

theorem encoded_eq_nil_iff {text : List Char} : encoded text = [] ↔ text = [] := by
  cases text with
  | nil => simp [encoded]
  | cons c cs => simp [encoded, String.utf8EncodeChar_ne_nil]

theorem newline_mem_utf8EncodeChar {c : Char} : 10 ∈ String.utf8EncodeChar c ↔ c = '\n' := by
  have hval : c = '\n' ↔ c.val.toNat = 10 := by
    rw [Char.ext_iff, ← UInt32.toNat_inj]
    rfl
  rw [hval, String.utf8EncodeChar]
  generalize c.val.toNat = v
  -- every byte of a longer encoding is 128 or more
  split_ifs <;>
    simp only [List.mem_cons, List.not_mem_nil, or_false, ← UInt8.toNat_inj, UInt8.toNat_ofNat',
      UInt8.reduceToNat] <;>
    omega

theorem newline_mem_encoded {text : List Char} : 10 ∈ encoded text ↔ '\n' ∈ text := by
  simp [encoded, newline_mem_utf8EncodeChar]

theorem chunks_encoded (text : List Char) :
    chunks 10 (encoded text) = (chunks '\n' text).map encoded := by
  induction text using chunk_induction '\n' with
  | nil => rfl
  | last line hline hne =>
    rw [chunks_of_not_mem hline hne,
      chunks_of_not_mem (mt newline_mem_encoded.mp hline) (mt encoded_eq_nil_iff.mp hne)]
    rfl
  | line line rest hline ih =>
    rw [chunks_append_terminator hline, encoded_append, encoded_newline,
      chunks_append_terminator (mt newline_mem_encoded.mp hline), ih]
    simp [encoded_newline]
    rfl

theorem mk_encoded (text : List Char) : ByteArray.mk (encoded text).toArray = text.utf8Encode := by
  ext1
  simp [encoded, List.utf8Encode]

theorem decodeLine?_encoded (line : List Char) :
    decodeLine? (encoded line) = some (String.ofList (unterminated line)) := by
  have htext : String.fromUTF8? line.utf8Encode = some (String.ofList line) := by
    rw [String.fromUTF8?, dif_pos ByteArray.isValidUTF8_utf8Encode]
    rfl
  rw [decodeLine?, mk_encoded, htext, Option.map_some, String.toList_ofList]

/-- The lines of a text. Each ends at a newline, which is left out with one
carriage return before it; what follows the last newline is a line as it is,
unless there is nothing. -/
inductive Splits : List Char → List String → Prop
  | nil : Splits [] []
  | last : '\n' ∉ line → line ≠ [] → Splits line [String.ofList line]
  | newline : '\n' ∉ line → line.getLast? ≠ some '\r' → Splits rest later →
      Splits (line ++ '\n' :: rest) (String.ofList line :: later)
  | carriageReturn : '\n' ∉ line → Splits rest later →
      Splits (line ++ '\r' :: '\n' :: rest) (String.ofList line :: later)

theorem unterminated_of_not_mem (h : '\n' ∉ line) : unterminated line = line := by
  rw [← List.mem_reverse] at h
  unfold unterminated
  split <;> simp_all

theorem unterminated_carriageReturn (line : List Char) :
    unterminated (line ++ ['\r', '\n']) = line := by
  simp [unterminated]

theorem unterminated_newline (h : line.getLast? ≠ some '\r') :
    unterminated (line ++ ['\n']) = line := by
  rcases List.eq_nil_or_concat line with rfl | ⟨front, c, rfl⟩
  · rfl
  · have hc : c ≠ '\r' := by simpa using h
    simp [unterminated, hc]

theorem Splits.eq_chunks (h : Splits text found) :
    found = (chunks '\n' text).map fun line => String.ofList (unterminated line) := by
  induction h with
  | nil => rfl
  | last hline hne => simp [chunks_of_not_mem hline hne, unterminated_of_not_mem hline]
  | newline hline hcr _ ih => simp [chunks_append_terminator hline, unterminated_newline hcr, ih]
  | @carriageReturn line rest later hline _ ih =>
    have hfirst : '\n' ∉ line ++ ['\r'] := by simpa using hline
    have hchunks := chunks_append_terminator hfirst rest
    simp only [List.append_assoc, List.cons_append, List.nil_append] at hchunks
    rw [hchunks, List.map_cons, unterminated_carriageReturn, ih]

theorem splits_chunks (text : List Char) :
    Splits text ((chunks '\n' text).map fun line => String.ofList (unterminated line)) := by
  induction text using chunk_induction '\n' with
  | nil => exact .nil
  | last line hline hne =>
    simp only [chunks_of_not_mem hline hne, List.map_cons, List.map_nil,
      unterminated_of_not_mem hline]
    exact .last hline hne
  | line line rest hline ih =>
    rw [chunks_append_terminator hline, List.map_cons]
    by_cases hcr : line.getLast? = some '\r'
    · obtain ⟨front, rfl⟩ := List.getLast?_eq_some_iff.mp hcr
      simp only [List.append_assoc, List.cons_append, List.nil_append,
        unterminated_carriageReturn]
      exact .carriageReturn (fun h => hline (List.mem_append_left _ h)) ih
    · rw [unterminated_newline hcr]
      exact .newline hline hcr ih

theorem splits_iff {text : String} : Splits text.toList found ↔ found = lines text := by
  constructor
  · exact Splits.eq_chunks
  · rintro rfl
    exact splits_chunks _

theorem lines_append {first : String} (h : Terminated '\n' first.toList) (second : String) :
    lines (first ++ second) = lines first ++ lines second := by
  rw [lines, String.toList_append, h.chunks_append, List.map_append]
  rfl

theorem lines_newline {line : String} (hline : '\n' ∉ line.toList)
    (hcr : line.toList.getLast? ≠ some '\r') : lines (line ++ "\n") = [line] := by
  have h := Splits.newline hline hcr .nil
  rw [String.ofList_toList] at h
  exact (splits_iff.mp (by simpa using h)).symm

end Abacus.Text
