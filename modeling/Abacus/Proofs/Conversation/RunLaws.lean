import Abacus.Program
import Abacus.Proofs.CalculationLaws
import Abacus.Proofs.Text.LineLaws
import Mathlib.Data.List.Forall2

/-! Chunks that can be read are answered in order and recorded, and the conversation
goes on with what follows them (`Conversation.run_append`). -/

namespace Abacus

theorem solve_eq_ok_iff :
    solve text = .ok (e, v) ↔ Expr.ofText text = .ok e ∧ evaluate text = .ok v := by
  rw [evaluate_eq]
  unfold solve
  cases htree : Expr.ofText text with
  | error f => simp [bind, Except.bind]
  | ok tree =>
    cases hvalue : tree.value <;>
      simp [bind, Except.bind, pure, Except.pure, hvalue]

theorem solve_eq_error_iff : solve text = .error f ↔ evaluate text = .error f := by
  rw [evaluate_eq]
  unfold solve
  cases htree : Expr.ofText text with
  | error e => simp [bind, Except.bind]
  | ok tree =>
    cases hvalue : tree.value <;>
      simp [bind, Except.bind, pure, Except.pure, hvalue]

/-- These bytes are there and are read as the line. -/
def Text.Spells (chunk : List UInt8) (line : String) : Prop :=
  chunk ≠ [] ∧ Text.decodeLine? chunk = some line

theorem Text.chunks_spell (text : String) :
    List.Forall₂ Spells (chunks 10 (encoded text.toList)) (lines text) := by
  rw [chunks_encoded, lines, List.forall₂_map_left_iff, List.forall₂_map_right_iff,
    List.forall₂_same]
  intro chunk hchunk
  exact ⟨mt encoded_eq_nil_iff.mp (ne_nil_of_mem_chunks hchunk), decodeLine?_encoded chunk⟩

def History.recordAll (lines : List String) (history : History) : History :=
  lines.foldl (fun history line => history.record line) history

namespace Settings

def turns (settings : Settings) (lines : List String) : List String :=
  lines.flatMap fun line => [settings.prompt, settings.answer line]

/-- A run without words, with its history in this place, where `archive` is found. -/
def session (settings : Settings) (place : HistoryPlace) (archive : Archive)
    (input : List UInt8) : Outcome × Archive :=
  Invocation.run ⟨[], settings.prompt, place, settings.showTree⟩ archive input

end Settings

theorem Turn.take_of_spells (settings : Settings) (history : History)
    (h : Text.Spells chunk line) :
    take settings history chunk = .answered (settings.answer line) (history.record line) := by
  rw [take, if_neg (by simpa using h.1), h.2]

theorem Conversation.run_append (settings : Settings) (h : List.Forall₂ Text.Spells chunks lines)
    (more : List (List UInt8)) (history : History) :
    run settings (chunks ++ more) history =
      let later := run settings more (history.recordAll lines)
      { later with output := settings.turns lines ++ later.output } := by
  induction h generalizing history with
  | nil => rfl
  | cons hchunk _ ih =>
    rw [List.cons_append, run, Turn.take_of_spells settings history hchunk]
    simp only [ih]
    rfl

theorem Conversation.run_of_spells (settings : Settings)
    (h : List.Forall₂ Text.Spells chunks lines) (history : History) :
    run settings chunks history =
      ⟨settings.turns lines ++ [settings.prompt], history.recordAll lines, .endOfInput⟩ := by
  simpa [run] using run_append settings h [] history

theorem Settings.session_encoded (settings : Settings) (place : HistoryPlace) (archive : Archive)
    (text : String) :
    settings.session place archive (Text.encoded text.toList) =
      (⟨0, String.join (settings.turns (Text.lines text)) ++ settings.prompt, ""⟩,
        archive.save (archive.load.recordAll (Text.lines text))) := by
  change converse settings archive (Text.encoded text.toList) = _
  rw [converse, Conversation.run_of_spells settings (Text.chunks_spell text)]
  simp [Ending.status, Ending.message, Ending.archive]

end Abacus
