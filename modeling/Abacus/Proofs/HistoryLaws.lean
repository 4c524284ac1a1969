import Abacus.History
import Abacus.Proofs.Text.LineLaws
import Mathlib.Data.List.Destutter
import Mathlib.Data.List.DropRight

/-!
# History laws

What a history holds is the kept part of the lines recorded (`push_kept`). A file
written with it is read back to the same entries, as long as no carriage return
is in them (`read_written`).
-/

namespace Abacus

section

variable {α : Type}

theorem getLast?_rtake (xs : List α) (n : Nat) : (xs.rtake (n + 1)).getLast? = xs.getLast? := by
  rcases List.eq_nil_or_concat xs with rfl | ⟨front, x, rfl⟩
  · simp
  · rw [List.concat_eq_append, List.rtake_concat_succ, List.getLast?_concat, List.getLast?_concat]

theorem rtake_rtake (xs : List α) (h : m ≤ n) : (xs.rtake n).rtake m = xs.rtake m := by
  simp [List.rtake_eq_reverse_take_reverse, List.take_take, Nat.min_eq_left h]

theorem rtake_concat_rtake (xs : List α) (x : α) (n : Nat) :
    (xs.rtake (n + 1) ++ [x]).rtake (n + 1) = (xs ++ [x]).rtake (n + 1) := by
  rw [List.rtake_concat_succ, List.rtake_concat_succ, rtake_rtake xs (Nat.le_succ n)]

variable [DecidableEq α]

theorem filter_ne_of_not_mem {x : α} {xs : List α} (h : x ∉ xs) : xs.filter (· ≠ x) = xs :=
  List.filter_eq_self.mpr fun _ hy => by simpa using ne_of_mem_of_not_mem hy h

theorem destutter'_concat (a : α) (xs : List α) (x : α) :
    (xs ++ [x]).destutter' (· ≠ ·) a =
      if (a :: xs).getLast? = some x then xs.destutter' (· ≠ ·) a
      else xs.destutter' (· ≠ ·) a ++ [x] := by
  induction xs generalizing a with
  | nil =>
    by_cases h : a = x <;> simp [h]
  | cons b xs ih =>
    rw [List.cons_append, List.getLast?_cons_cons]
    by_cases h : a ≠ b
    · rw [List.destutter'_cons_pos _ h, List.destutter'_cons_pos _ h, ih]
      split <;> rfl
    · obtain rfl := not_not.mp h
      rw [List.destutter'_cons_neg _ h, List.destutter'_cons_neg _ h, ih]

theorem destutter_concat (xs : List α) (x : α) :
    (xs ++ [x]).destutter (· ≠ ·) =
      if xs.getLast? = some x then xs.destutter (· ≠ ·) else xs.destutter (· ≠ ·) ++ [x] := by
  cases xs with
  | nil => rfl
  | cons a xs => exact destutter'_concat a xs x

theorem getLast?_destutter (xs : List α) : (xs.destutter (· ≠ ·)).getLast? = xs.getLast? := by
  induction xs using List.reverseRecOn with
  | nil => rfl
  | append_singleton xs x ih =>
    rw [destutter_concat, List.getLast?_concat]
    split
    · next h => rw [ih, h]
    · exact List.getLast?_concat

end

namespace History

/-- Of lines in a row, those that do not repeat the one before, and of these the latest. -/
def kept (lines : List String) : List String := (lines.destutter (· ≠ ·)).rtake capacity

theorem mem_of_mem_kept (h : line ∈ kept lines) : line ∈ lines :=
  (lines.destutter_sublist _).subset (List.mem_of_mem_drop h)

theorem getLast?_kept (lines : List String) : (kept lines).getLast? = lines.getLast? :=
  (getLast?_rtake _ 99).trans (getLast?_destutter lines)

theorem kept_kept (lines : List String) : kept (kept lines) = kept lines := by
  have hchain : (kept lines).IsChain (· ≠ ·) := (lines.isChain_destutter _).drop _
  rw [kept, List.destutter_of_isChain _ _ hchain, kept, rtake_rtake _ (Nat.le_refl _)]

theorem push_kept (hline : line ≠ "") : push (kept lines) line = kept (lines ++ [line]) := by
  rw [push, getLast?_kept, kept, kept, destutter_concat]
  by_cases hlast : lines.getLast? = some line
  · rw [if_pos (.inr hlast), if_pos hlast]
  · rw [if_neg (not_or.mpr ⟨hline, hlast⟩), if_neg hlast]
    generalize lines.destutter (· ≠ ·) = found
    have hdrop (entries : List String) : (entries ++ [line]).drop (entries.length + 1 - capacity) =
        (entries ++ [line]).rtake capacity := by
      rw [List.rtake, List.length_append, List.length_singleton]
    exact (hdrop _).trans (rtake_concat_rtake found line 99)

theorem push_empty (entries : List String) : push entries "" = entries := if_pos (.inl rfl)

theorem foldl_push_kept (lines more : List String) :
    more.foldl push (kept lines) = kept (lines ++ more.filter (· ≠ "")) := by
  induction more generalizing lines with
  | nil => simp
  | cons line more ih =>
    by_cases hline : line = ""
    · subst hline
      simpa [push_empty] using ih lines
    · rw [List.foldl_cons, push_kept hline, ih]
      simp [hline]

end History

-- ---------------------------------------------------------------------------
-- Lines of a file
-- ---------------------------------------------------------------------------

namespace Text

theorem flatten_chunks {α : Type} [DecidableEq α] (terminator : α) (xs : List α) :
    (chunks terminator xs).flatten = xs := by
  induction xs using chunk_induction terminator with
  | nil => rfl
  | last xs hxs hne => simp [chunks_of_not_mem hxs hne]
  | line xs ys hxs ih => simp [chunks_append_terminator hxs, ih]

theorem mem_of_mem_unterminated (h : c ∈ unterminated line) : c ∈ line := by
  unfold unterminated at h
  split at h
  · next body hline =>
    rw [← List.mem_reverse, hline]
    exact List.mem_cons_of_mem _ (List.mem_cons_of_mem _ (List.mem_reverse.mp h))
  · next body _ hline =>
    rw [← List.mem_reverse, hline]
    exact List.mem_cons_of_mem _ (List.mem_reverse.mp h)
  · exact h

theorem mem_of_mem_lines {line text : String} (h : line ∈ lines text) (hc : c ∈ line.toList) :
    c ∈ text.toList := by
  obtain ⟨chunk, hchunk, rfl⟩ := List.mem_map.mp h
  rw [String.toList_ofList] at hc
  rw [← flatten_chunks '\n' text.toList]
  exact List.mem_flatten_of_mem hchunk (mem_of_mem_unterminated hc)

theorem lines_join {found : List String}
    (h : ∀ line ∈ found, '\n' ∉ line.toList ∧ '\r' ∉ line.toList) :
    lines (String.join (found.map (· ++ "\n"))) = found := by
  induction found with
  | nil => rfl
  | cons line found ih =>
    obtain ⟨⟨hline, hcr⟩, hfound⟩ := List.forall_mem_cons.mp h
    have hended : Terminated '\n' (line ++ "\n").toList := .inr ⟨line.toList, by simp⟩
    rw [List.map_cons, String.join_cons, lines_append hended, ih hfound,
      lines_newline hline fun hlast => hcr (List.mem_of_getLast? hlast)]
    rfl

theorem mem_escaped (h : c ∈ escaped text) : c = '\\' ∨ c = 'n' ∨ c ∈ text ∧ c ≠ '\n' := by
  induction text with
  | nil => cases h
  | cons d text ih =>
    unfold escaped at h
    grind

theorem mem_unescaped? (h : unescaped? line = some text) (hc : c ∈ text) : c = '\n' ∨ c ∈ line := by
  induction line using unescaped?.induct generalizing text with
  | case1 =>
    cases h
    cases hc
  | case2 rest ih | case3 rest ih =>
    obtain ⟨text, htext, rfl⟩ := Option.map_eq_some_iff.mp h
    have := ih htext
    grind
  | case4 => simp_all [unescaped?]
  | case5 d rest _ _ _ ih =>
    rw [unescaped?] at h <;> try assumption
    obtain ⟨text, htext, rfl⟩ := Option.map_eq_some_iff.mp h
    have := ih htext
    grind

end Text

namespace History

def allEntries (text : String) : List String :=
  match Text.lines text with
  | first :: rest => if first = heading then rest.map entryOf else first :: rest
  | [] => []

theorem read_eq (text : String) : read text = kept ((allEntries text).filter (· ≠ "")) := by
  have hall (entries : List String) : entries.foldl push [] = kept (entries.filter (· ≠ "")) :=
    foldl_push_kept [] entries
  rw [read, allEntries]
  cases Text.lines text with
  | nil => rfl
  | cons first rest =>
    dsimp only
    split
    · exact hall _
    · exact hall _

theorem mem_entryOf (hc : c ∈ (entryOf line).toList) : c = '\n' ∨ c ∈ line.toList := by
  unfold entryOf at hc
  split at hc
  · next entry hentry => exact Text.mem_unescaped? hentry (by simpa using hc)
  · exact .inr hc

theorem mem_allEntries {entry text : String} (h : entry ∈ allEntries text) (hc : c ∈ entry.toList) :
    c = '\n' ∨ c ∈ text.toList := by
  have hline (line : String) (hmem : line ∈ Text.lines text) (hc : c ∈ line.toList) :
      c ∈ text.toList := Text.mem_of_mem_lines hmem hc
  unfold allEntries at h
  split at h
  · next first rest hlines =>
    rw [hlines] at hline
    split at h
    · obtain ⟨line, hmem, rfl⟩ := List.mem_map.mp h
      exact (mem_entryOf hc).imp_right (hline line (List.mem_cons_of_mem _ hmem))
    · exact .inr (hline entry h hc)
  · cases h

variable {entries : List String}

/-- Entries that a file gives back as they are. -/
structure Lasting (entries : List String) : Prop where
  kept : kept entries = entries
  nonempty : "" ∉ entries
  plain : ∀ entry ∈ entries, '\r' ∉ entry.toList

theorem lasting_kept (hne : "" ∉ lines) (hcr : ∀ line ∈ lines, '\r' ∉ line.toList) :
    Lasting (kept lines) where
  kept := kept_kept lines
  nonempty := fun h => hne (mem_of_mem_kept h)
  plain := fun entry h => hcr entry (mem_of_mem_kept h)

theorem lasting_read {text : String} (hcr : '\r' ∉ text.toList) : Lasting (read text) := by
  rw [read_eq]
  refine lasting_kept (by simp) fun entry hentry hc => ?_
  obtain hc | hc := mem_allEntries (List.mem_of_mem_filter hentry) hc
  · cases hc
  · exact hcr hc

theorem entryOf_escaped (entry : String) :
    entryOf (String.ofList (Text.escaped entry.toList)) = entry := by
  rw [entryOf, String.toList_ofList, Text.unescaped?_escaped]
  exact String.ofList_toList

theorem lines_written (hcr : ∀ entry ∈ entries, '\r' ∉ entry.toList) :
    Text.lines (written entries) =
      heading :: entries.map fun entry => String.ofList (Text.escaped entry.toList) := by
  refine Text.lines_join (List.forall_mem_cons.mpr ⟨by decide +kernel, ?_⟩)
  intro line hline
  obtain ⟨entry, hentry, rfl⟩ := List.mem_map.mp hline
  rw [String.toList_ofList]
  refine ⟨fun hc => ?_, fun hc => ?_⟩
  · have := Text.mem_escaped hc
    simp at this
  · have := Text.mem_escaped hc
    simp [hcr entry hentry] at this

theorem read_written (h : Lasting entries) : read (written entries) = entries := by
  have hentries : allEntries (written entries) = entries := by
    rw [allEntries, lines_written h.plain]
    simp [Function.comp_def, entryOf_escaped]
  rw [read_eq, hentries, filter_ne_of_not_mem h.nonempty, h.kept]

end History

end Abacus
