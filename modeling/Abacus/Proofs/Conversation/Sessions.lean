import Abacus.Proofs.Conversation.RunLaws
import Abacus.Proofs.HistoryLaws

/-!
# Sessions in a row

What a session leaves in its archive is said by `Archive.adding`, which knows the
lines and nothing of their answers. Reading the file gives the entries that were
written, so a session can go on from the file of another (`session_archive`).
-/

namespace Abacus

/-- The lines with something on them. -/
def Text.occupied (lines : List String) : List String := lines.filter (!isVacant ·)

theorem Text.occupied_cons (line : String) (lines : List String) :
    occupied (line :: lines) =
      if isVacant line then occupied lines else line :: occupied lines := by
  cases h : isVacant line <;> simp [occupied, h]

theorem Text.empty_not_mem_occupied (lines : List String) : "" ∉ occupied lines := by
  have hvacant : isVacant "" = true := by decide
  simp [occupied, hvacant]

namespace History

variable {history : History} {line : String} {lines : List String}

/-- The lines add nothing: unless it is vacant, each is the last entry again. -/
def Repeats (history : History) (lines : List String) : Prop :=
  ∀ line ∈ Text.occupied lines, history.entries.getLast? = some line

theorem repeats_cons : history.Repeats (line :: lines) ↔
    (Text.isVacant line ∨ history.entries.getLast? = some line) ∧ history.Repeats lines := by
  rw [Repeats, Text.occupied_cons]
  by_cases hline : Text.isVacant line = true
  · simp [Repeats, hline]
  · simp [Repeats, hline]

theorem record_of_repeats (h : Text.isVacant line ∨ history.entries.getLast? = some line) :
    history.record line = history := if_pos h

theorem record_of_new (h : ¬ (Text.isVacant line ∨ history.entries.getLast? = some line)) :
    history.record line = ⟨push history.entries line, true⟩ := if_neg h

theorem recordAll_cons (line : String) (lines : List String) (history : History) :
    history.recordAll (line :: lines) = (history.record line).recordAll lines := rfl

theorem recordAll_append (first second : List String) (history : History) :
    history.recordAll (first ++ second) = (history.recordAll first).recordAll second :=
  List.foldl_append

theorem record_entries (line : String) (history : History) :
    (history.record line).entries =
      if Text.isVacant line then history.entries else push history.entries line := by
  by_cases hline : Text.isVacant line = true
  · rw [record_of_repeats (.inl hline), if_pos hline]
  rw [if_neg hline]
  by_cases hlast : history.entries.getLast? = some line
  · rw [record_of_repeats (.inr hlast), push, if_pos (.inr hlast)]
  · rw [record_of_new (not_or.mpr ⟨hline, hlast⟩)]

theorem recordAll_entries (lines : List String) (history : History) :
    (history.recordAll lines).entries = (Text.occupied lines).foldl push history.entries := by
  induction lines generalizing history with
  | nil => rfl
  | cons line lines ih =>
    rw [recordAll_cons, ih, record_entries, Text.occupied_cons]
    split <;> rfl

theorem recordAll_entries_kept (lines : List String) (h : kept history.entries = history.entries) :
    (history.recordAll lines).entries = kept (history.entries ++ Text.occupied lines) := by
  rw [recordAll_entries, ← h, foldl_push_kept, h,
    filter_ne_of_not_mem (Text.empty_not_mem_occupied lines)]

theorem recordAll_of_repeats (h : history.Repeats lines) : history.recordAll lines = history := by
  induction lines with
  | nil => rfl
  | cons line lines ih =>
    obtain ⟨hline, hlines⟩ := repeats_cons.mp h
    rw [recordAll_cons, record_of_repeats hline, ih hlines]

theorem changed_record (line : String) (h : history.changed = true) :
    (history.record line).changed = true := by
  unfold record
  split
  · exact h
  · rfl

theorem changed_recordAll_of_changed (lines : List String) (h : history.changed = true) :
    (history.recordAll lines).changed = true := by
  induction lines generalizing history with
  | nil => exact h
  | cons line lines ih => exact ih (changed_record line h)

theorem changed_recordAll (h : ¬ history.Repeats lines) :
    (history.recordAll lines).changed = true := by
  induction lines with
  | nil => simp [Repeats, Text.occupied] at h
  | cons line lines ih =>
    rw [repeats_cons, not_and] at h
    rw [recordAll_cons]
    by_cases hline : Text.isVacant line ∨ history.entries.getLast? = some line
    · rw [record_of_repeats hline, ih (h hline)]
    · rw [record_of_new hline]
      exact changed_recordAll_of_changed lines rfl

theorem recordAll_congr {other : History} (hentries : other.entries = history.entries)
    (h : ¬ history.Repeats lines) : other.recordAll lines = history.recordAll lines := by
  have hother : ¬ other.Repeats lines := by rwa [Repeats, hentries]
  have hsame : (other.recordAll lines).entries = (history.recordAll lines).entries := by
    rw [recordAll_entries, recordAll_entries, hentries]
  calc other.recordAll lines
      = ⟨(other.recordAll lines).entries, true⟩ := by rw [← changed_recordAll hother]
    _ = ⟨(history.recordAll lines).entries, true⟩ := by rw [hsame]
    _ = history.recordAll lines := by rw [← changed_recordAll h]

theorem Lasting.recordAll (h : Lasting history.entries)
    (hcr : ∀ line ∈ lines, '\r' ∉ line.toList) : Lasting (history.recordAll lines).entries := by
  rw [recordAll_entries_kept lines h.kept]
  refine lasting_kept ?_ fun line hline => ?_
  · rw [List.mem_append, not_or]
    exact ⟨h.nonempty, Text.empty_not_mem_occupied lines⟩
  · obtain hline | hline := List.mem_append.mp hline
    · exact h.plain line hline
    · exact hcr line (List.mem_of_mem_filter hline)

end History

-- ---------------------------------------------------------------------------
-- Archives
-- ---------------------------------------------------------------------------

namespace Archive

open History (kept written)

/-- The archive with these lines added. Unless each of them repeats the last
entry, or is vacant, the file is written anew, and then with what is kept of
its entries and the lines together. -/
def adding (lines : List String) (archive : Archive) : Archive :=
  let entries := archive.load.entries
  let given := Text.occupied lines
  match archive with
  | .file text => .file <|
      if given.all fun line => entries.getLast? = some line then text
      else some (written (kept (entries ++ given)))
  | archive => archive

theorem kept_load (archive : Archive) : kept archive.load.entries = archive.load.entries := by
  unfold load
  split
  · rw [History.read_eq, History.kept_kept]
  · rfl

theorem changed_load (archive : Archive) : archive.load.changed = false := by
  unfold load
  split <;> rfl

theorem save_of_unchanged {history : History} (h : history.changed = false) (archive : Archive) :
    archive.save history = archive := by
  cases archive <;> simp [save, h]

theorem save_of_changed {history : History} (h : history.changed = true) (text : Option String) :
    (file text).save history = file (some (written history.entries)) := by
  simp [save, h]

theorem save_save {later : History} (h : later.changed = true) (history : History)
    (archive : Archive) : (archive.save history).save later = archive.save later := by
  cases archive <;> simp [save, h]

theorem save_recordAll (lines : List String) (archive : Archive) :
    archive.save (archive.load.recordAll lines) = archive.adding lines := by
  by_cases h : archive.load.Repeats lines
  · rw [History.recordAll_of_repeats h, save_of_unchanged archive.changed_load]
    cases archive with
    | file text => rw [adding, if_pos (by simpa [History.Repeats] using h)]
    | _ => rfl
  · cases archive with
    | file text =>
      rw [save_of_changed (History.changed_recordAll h),
        History.recordAll_entries_kept lines (kept_load _), adding,
        if_neg (by simpa [History.Repeats] using h)]
    | _ => rfl

theorem lasting_load {found : Option String} (hcr : ∀ text ∈ found, '\r' ∉ text.toList) :
    History.Lasting (file found).load.entries := by
  cases found with
  | none => exact ⟨rfl, by simp [load, History.empty], by simp [load, History.empty]⟩
  | some text => exact History.lasting_read (hcr text rfl)

theorem load_save {found : Option String} {lines : List String}
    (hfound : ∀ text ∈ found, '\r' ∉ text.toList) (hlines : ∀ line ∈ lines, '\r' ∉ line.toList) :
    let history := (file found).load.recordAll lines
    ((file found).save history).load = ⟨history.entries, false⟩ := by
  intro history
  by_cases h : (file found).load.Repeats lines
  · have hsame : history = (file found).load := History.recordAll_of_repeats h
    rw [hsame, save_of_unchanged (changed_load _), ← changed_load (file found)]
  · have hentries : History.Lasting history.entries := (lasting_load hfound).recordAll hlines
    rw [save_of_changed (History.changed_recordAll h), load, History.read_written hentries]

theorem adding_append {found : Option String} {first : List String}
    (hfound : ∀ text ∈ found, '\r' ∉ text.toList) (hfirst : ∀ line ∈ first, '\r' ∉ line.toList)
    (second : List String) :
    ((file found).adding first).adding second = (file found).adding (first ++ second) := by
  have hload := load_save hfound hfirst
  rw [← save_recordAll, ← save_recordAll, ← save_recordAll, hload, History.recordAll_append]
  generalize (file found).load.recordAll first = history
  -- the two histories have the same entries; only one of them may count as changed
  by_cases h : history.Repeats second
  · have hsaved : History.recordAll second ⟨history.entries, false⟩ = ⟨history.entries, false⟩ :=
      History.recordAll_of_repeats h
    have hgoing : history.recordAll second = history := History.recordAll_of_repeats h
    rw [hsaved, hgoing, save_of_unchanged rfl]
  · have hsaved : History.recordAll second ⟨history.entries, false⟩ = history.recordAll second :=
      History.recordAll_congr rfl h
    rw [hsaved, save_save (History.changed_recordAll h) history]

theorem adding_congr (h : Text.occupied lines = Text.occupied lines') (archive : Archive) :
    archive.adding lines = archive.adding lines' := by
  simp only [adding, h]

end Archive

-- ---------------------------------------------------------------------------
-- Sessions
-- ---------------------------------------------------------------------------

namespace Settings

theorem session_encoded_archive (settings : Settings) (place : HistoryPlace) (archive : Archive)
    (text : String) :
    (settings.session place archive (Text.encoded text.toList)).2 =
      archive.adding (Text.lines text) := by
  rw [session_encoded, Archive.save_recordAll]

/-- A session on a text leaves its archive with the lines of the text added,
however they are answered. A second session that finds the file of the first
leaves the file of one session on both texts. Lines with nothing but white
space on them make no difference. -/
theorem session_archive :
    (∀ (settings : Settings) place archive (text : String),
      (settings.session place archive (Text.encoded text.toList)).2 =
        archive.adding (Text.lines text)) ∧
    (∀ found (first second : String), (∀ text ∈ found, '\r' ∉ text.toList) →
      '\r' ∉ first.toList → Text.Terminated '\n' first.toList →
      ∀ (settings settings' settings'' : Settings) place place' place'',
        let left := (settings.session place (.file found) (Text.encoded first.toList)).2
        (settings'.session place' left (Text.encoded second.toList)).2 =
          (settings''.session place'' (.file found) (Text.encoded (first ++ second).toList)).2) ∧
    ∀ first second : String,
      Text.occupied (Text.lines first) = Text.occupied (Text.lines second) →
      ∀ (settings settings' : Settings) place place' archive,
        (settings.session place archive (Text.encoded first.toList)).2 =
          (settings'.session place' archive (Text.encoded second.toList)).2 := by
  refine ⟨session_encoded_archive, ?_, ?_⟩
  · intro found first second hfound hfirst hended settings settings' settings'' place place' place''
    have hlines : ∀ line ∈ Text.lines first, '\r' ∉ line.toList :=
      fun line hline hcr => hfirst (Text.mem_of_mem_lines hline hcr)
    simp only [session_encoded_archive]
    rw [Archive.adding_append hfound hlines, Text.lines_append hended]
  · intro first second hsame settings settings' place place' archive
    rw [session_encoded_archive, session_encoded_archive, Archive.adding_congr hsame]

theorem session_archive_over_two_sessions :
    let found := "#V2\n1\\\\2\n"
    let first := "1\\2\n \n7\n"
    let second := "7\n1/0\n"
    let left := (session ⟨"> ", false⟩ .home (.file (some found)) (Text.encoded first.toList)).2
    '\r' ∉ found.toList ∧ '\r' ∉ first.toList ∧ Text.Terminated '\n' first.toList ∧
      (session ⟨"", true⟩ .home left (Text.encoded second.toList)).2 =
        .file (some "#V2\n1\\\\2\n7\n1/0\n") ∧
      Text.occupied (Text.lines first) = Text.occupied (Text.lines "1\\2\n7") ∧
      left = (session ⟨"", true⟩ .home (.file (some found)) (Text.encoded "1\\2\n7".toList)).2 := by
  intro found first second left
  have hfound : '\r' ∉ found.toList := by decide +kernel
  have hfirst : '\r' ∉ first.toList := by decide +kernel
  have hended : Text.Terminated '\n' first.toList := .inr ⟨"1\\2\n \n7".toList, by decide +kernel⟩
  have hsame : Text.occupied (Text.lines first) = Text.occupied (Text.lines "1\\2\n7") := by
    decide +kernel
  obtain ⟨-, hrow, hvacant⟩ := session_archive
  have hboth := hrow (some found) first second (by simpa using hfound) hfirst hended
    ⟨"> ", false⟩ ⟨"", true⟩ ⟨"", true⟩ .home .home .home
  refine ⟨hfound, hfirst, hended, hboth.trans ?_, hsame, hvacant _ _ hsame _ _ _ _ _⟩
  decide +kernel

end Settings

end Abacus
