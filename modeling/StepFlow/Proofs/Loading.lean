import StepFlow.Scenario.Loading
import StepFlow.Proofs.Scenario.Contents
import Mathlib

/-! # Nothing of a document is passed over

A draft is loaded from a document exactly if every key of the document is known where it stands and
every value is of the type that belongs there, and then the draft holds the entries of the document
and nothing else; only the name of the scenario is made up from the path where the document gives
none. Otherwise loading fails for the first thing that is wrong, and says where it stands. How a
text is parsed does not matter for this, as long as no table of what comes out has a key twice.

What belongs where a section is expected includes arrays, though, whose items are taken for the
values of the known keys in their order. Of such an array everything beyond the known keys is passed
over without a word.

Main statements: `Schema.read_append`, and `Draft.load_spec`. -/

namespace StepFlow

open Reading
open Toml (Value)

/-- **What an array holds beyond the known keys of a section does not count.** -/
theorem Reading.Schema.read_append {S : Type} (schema : Schema S) {items : List Value}
    (full : schema.keys.length ≤ items.length) (s : S) (beyond : List Value) :
    schema.read s (.array (items ++ beyond)) = schema.read s (.array items) := by
  have rows : schema.keys.zip (items ++ beyond) = schema.keys.zip items := by
    have long : schema.keys.length ≤ (items ++ beyond).length :=
      Nat.le_trans full (List.length_append ▸ Nat.le_add_right _ _)
    have short : schema.keys.zip items =
        (schema.keys.take schema.keys.length).zip (items.take schema.keys.length) := by
      rw [List.zip_eq_zip_take_min, Nat.min_eq_left full]
    rw [short, List.zip_eq_zip_take_min, Nat.min_eq_left long, List.take_append_of_le_length full]
  unfold Schema.read
  simp only [entries?, rows]

namespace Draft

section Loaded

variable {parse : DocumentParser} {path : String} {content : FileResult ByteArray} {s : String}
  {t : List (String × Value)} (text : textOf content = .ok s) (valid : parse s = some t)

include text valid

/-- Loading a document is reading its table and naming the draft after the path. -/
theorem loadWith_eq : loadWith parse path content = (do
    let d ← (documentSchema.read {} (.table t)).mapError .document
    return d.named (Path.fileStem? path)) := by
  have read : ofTextWith parse s = documentSchema.read {} (.table t) := by
    rw [ofTextWith, valid]
    rfl
  rw [loadWith, text, ← read]
  rfl

theorem loadWith_eq_ok_iff {d : Draft} : loadWith parse path content = .ok d ↔
    ∃ r, documentSchema.read {} (.table t) = .ok r ∧ d = r.named (Path.fileStem? path) := by
  rw [loadWith_eq text valid]
  cases documentSchema.read {} (.table t) with
  | error e => exact ⟨nofun, nofun⟩
  | ok r => simp [Except.mapError, bind, Except.bind, pure, Except.pure, eq_comm]

theorem loadWith_eq_error_iff {f : Failure} : loadWith parse path content = .error f ↔
    ∃ e, documentSchema.read {} (.table t) = .error e ∧ f = .document e := by
  rw [loadWith_eq text valid]
  cases documentSchema.read {} (.table t) with
  | error e => simp [Except.mapError, bind, Except.bind, eq_comm]
  | ok r => exact ⟨nofun, nofun⟩

end Loaded

/-- A draft holds the same entries when it is named, and the name where there was none. -/
theorem Holds.named {d : Draft} {v : Value} (holds : d.Holds v none) (name : Option String) :
    (d.named name).Holds v name :=
  { holds with name := by rw [Draft.named, holds.name, Option.or_none] }

/-- Loading **mirrors** a document when it gives a draft exactly if the document fits, the draft
holds the document's entries and no others but a name, and loading fails exactly for the document's
fault. -/
structure Mirrors (loaded : Except Failure Draft) (v : Value) (name : Option String) : Prop where
  fits : (∃ d, loaded = .ok d) ↔ Fits .document v
  holds : ∀ d, loaded = .ok d → d.Holds v name
  fault : ∀ f, loaded = .error f ↔ ∃ e, FirstFault .document v e ∧ f = .document e

/-- Loading mirrors the document that a text is parsed as, if no table there has a key twice. -/
theorem mirrors_loadWith {parse : DocumentParser} {content : FileResult ByteArray} {s : String}
    {t : List (String × Value)} (text : textOf content = .ok s) (valid : parse s = some t)
    (distinct : (Value.table t).Distinct) (path : String) :
    Mirrors (loadWith parse path content) (.table t) (Path.fileStem? path) := by
  refine ⟨?_, fun d loaded => ?_, fun f => ?_⟩
  · simp only [loadWith_eq_ok_iff text valid, ← (follows_document {}).ok]
    constructor
    · rintro ⟨-, r, read, -⟩
      exact ⟨r, read⟩
    · rintro ⟨r, read⟩
      exact ⟨_, r, read, rfl⟩
  · obtain ⟨r, read, rfl⟩ := (loadWith_eq_ok_iff text valid).1 loaded
    exact (holds_of_read distinct read).named _
  · simp only [loadWith_eq_error_iff text valid, (follows_document {}).error]

/-- **Nothing of a document is passed over**, whichever parser reads the text as a table without
repeated keys: loading mirrors that table. `Toml.parse` is one such parser. -/
theorem load_spec {content : FileResult ByteArray} {s : String} (text : textOf content = .ok s)
    (path : String) :
    (∀ (parse : DocumentParser) (t : List (String × Value)), parse s = some t →
      (Value.table t).Distinct →
      Mirrors (loadWith parse path content) (.table t) (Path.fileStem? path)) ∧
    ∀ t, Toml.parse s = some t → Mirrors (load path content) (.table t) (Path.fileStem? path) := by
  refine ⟨fun parse t valid distinct => ?_, fun t valid => ?_⟩
  · exact mirrors_loadWith text valid distinct path
  · exact mirrors_loadWith text valid (Toml.distinct_of_parse valid) path

/-- A misspelt key is what loading the document fails for, at its place. -/
theorem load_spec_sample :
    load "s.toml" (.ok "[step.a]\ncommand = 5\n".toUTF8) = .error (.document
      (.unknownKey [.key "step", .key "a"] "command" ["cmd", "group", "requires", "env", "cwd"]))
      := by
  have text : textOf (.ok "[step.a]\ncommand = 5\n".toUTF8) = .ok "[step.a]\ncommand = 5\n" := by
    cbv
  have valid : Toml.parse "[step.a]\ncommand = 5\n" =
      some [("step", .table [("a", .table [("command", .integer 5)])])] := by cbv
  have one : ∀ e : String × Value, byKey [e] = [e] := by simp [byKey]
  have unknown : FirstFault .step (.table [("command", .integer 5)])
      (.unknownKey [] "command" ["cmd", "group", "requires", "env", "cwd"]) :=
    fault_of_row (congrArg some (one _)) (.inl ⟨rfl, rfl⟩)
  have step : FirstFault (.catalog .step) (.table [("a", .table [("command", .integer 5)])])
      (.unknownKey [.key "a"] "command" ["cmd", "group", "requires", "env", "cwd"]) :=
    fault_of_row (congrArg some (one _)) (.inr ⟨_, rfl, _, unknown, rfl⟩)
  have fault : FirstFault .document
      (.table [("step", .table [("a", .table [("command", .integer 5)])])])
      (.unknownKey [.key "step", .key "a"] "command"
        ["cmd", "group", "requires", "env", "cwd"]) :=
    fault_of_row (congrArg some (one _)) (.inr ⟨_, rfl, _, step, rfl⟩)
  exact (((load_spec text "s.toml").2 _ valid).fault _).2 ⟨_, fault, rfl⟩

/-- An array where the section of a coordinator is expected is loaded as that section, and its
second item is dropped without a word. -/
theorem coordinator_array_loaded : load "s.toml" (.ok "coordinator = [4, 5]\n".toUTF8) =
    .ok { name := some "s", workers := some 4 } := by cbv

end Draft

end StepFlow
