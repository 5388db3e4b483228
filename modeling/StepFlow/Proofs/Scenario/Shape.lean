import StepFlow.Scenario.Reading
import Mathlib.Data.List.Forall2

/-! # What belongs in a scenario document

A shape says which values belong somewhere in a document: plain values of a kind, a table of any
keys whose values are all of one shape, or a record, whose keys are known and have a shape each. A
value that is of its shape all the way down fits it. Of one that does not, the fault is the first
thing that is wrong when the entries of every table are visited by key, each with all that is below
it before the next one.

A record can be given as an array too, which has the values of the known keys in their order, and
what an array holds beyond them is not visited at all. A moment passes for a table of one entry.

Main statement: `follows_document`, that reading a document succeeds exactly if it fits and else
reports its fault. -/

namespace StepFlow

namespace Reading

open Toml (Value)

/-! ## Shapes -/

/-- A **shape** says which values belong somewhere. -/
inductive Shape where
  /-- A text. -/
  | text
  /-- An array of texts. -/
  | texts
  /-- An integer that counts something. -/
  | count
  /-- A table of any keys, all of whose values are of one shape. -/
  | catalog (each : Shape)
  /-- A table of known keys, whose values are of a shape each. -/
  | record (known : List (String × Shape))

namespace Shape

/-- The shape of the section of a scenario. -/
def scenario : Shape := .record [("name", .text), ("log_dir", .text)]

/-- The shape of the section of a coordinator. -/
def coordinator : Shape := .record [("max_workers", .count)]

/-- The shape of the section of a group. -/
def group : Shape := .record [("group", .text), ("requires", .texts)]

/-- The shape of the section of a step. -/
def step : Shape := .record [("cmd", .text), ("group", .text), ("requires", .texts),
  ("env", .catalog .text), ("cwd", .text)]

/-- The shape of a document. -/
def document : Shape := .record [("scenario", scenario), ("coordinator", coordinator),
  ("group", .catalog group), ("step", .catalog step)]

/-- The keys that a shape knows. -/
def keys : Shape → List String
  | .record known => known.map (·.1)
  | _ => []

/-- The shape of what belongs under a key, if the key does. -/
def at? : Shape → String → Option Shape
  | .catalog each, _ => some each
  | .record known, k => known.lookup k
  | _, _ => none

/-- A shape is **keyed** when its values are tables. -/
def Keyed : Shape → Prop
  | .catalog _ | .record _ => True
  | _ => False

/-- The **rows** of a value of a keyed shape, in the order in which they are visited. -/
def rows? : Shape → Value → Option (List (String × Value))
  -- an array gives its items to the known keys, as far as there are both
  | .record known, .array items => some ((known.map (·.1)).zip items)
  | .record _, .table entries | .catalog _, .table entries => some (byKey entries)
  | .record _, .moment m | .catalog _, .moment m => some [(momentKey, .text m.text)]
  | _, _ => none

end Shape

/-- A value **fits** a shape when it is of it all the way down: a text or an array of texts where
they belong, an integer that sixty-four bits can count to where a count does, and where keys belong
a value all of whose rows have a key that does and a value that fits what belongs there. -/
inductive Fits : Shape → Value → Prop where
  | text (s : String) : Fits .text (.text s)
  | texts {items : List Value} (all : ∀ v ∈ items, Fits .text v) : Fits .texts (.array items)
  | count {n : Int} (low : 0 ≤ n) (high : n ≤ maxCount) : Fits .count (.integer n)
  | rows {σ : Shape} {v : Value} {rows : List (String × Value)} (here : σ.rows? v = some rows)
      (known : ∀ e ∈ rows, (σ.at? e.1).isSome)
      (all : ∀ e ∈ rows, ∀ τ, σ.at? e.1 = some τ → Fits τ e.2) : Fits σ v

/-- A row **sits** in a shape when its key belongs there and its value fits. -/
def Sits (σ : Shape) (e : String × Value) : Prop := ∃ τ, σ.at? e.1 = some τ ∧ Fits τ e.2

/-- The **fault** of a value: the first thing that keeps it from fitting a shape, and the place in
the value where it stands. With rows it is that a key does not belong, or else the fault of the
value there, and all rows before it sit. -/
inductive FirstFault : Shape → Value → ReadError → Prop where
  | text {v : Value} (misfit : ¬ Fits .text v) : FirstFault .text v (.wrongType [])
  | texts {v : Value} (none : ∀ items, v ≠ .array items) : FirstFault .texts v (.wrongType [])
  | item {good rest : List Value} {v : Value} {error : ReadError}
      (before : ∀ w ∈ good, Fits .text w) (fault : FirstFault .text v error) :
      FirstFault .texts (.array (good ++ v :: rest)) (error.under (.item good.length))
  | negative {n : Int} (low : minInteger ≤ n) (high : n < 0) :
      FirstFault .count (.integer n) (.negativeCount [])
  | count {v : Value} (misfit : ¬ Fits .count v)
      (large : ∀ n, v = .integer n → n < minInteger ∨ 0 ≤ n) : FirstFault .count v (.wrongType [])
  | table {σ : Shape} {v : Value} (keyed : σ.Keyed) (none : σ.rows? v = none) :
      FirstFault σ v (.wrongType [])
  | unknown {σ : Shape} {v : Value} {good rest : List (String × Value)} {e : String × Value}
      (here : σ.rows? v = some (good ++ e :: rest)) (before : ∀ d ∈ good, Sits σ d)
      (none : σ.at? e.1 = none) : FirstFault σ v (.unknownKey [] e.1 σ.keys)
  | inside {σ τ : Shape} {v : Value} {good rest : List (String × Value)} {e : String × Value}
      {error : ReadError} (here : σ.rows? v = some (good ++ e :: rest))
      (before : ∀ d ∈ good, Sits σ d) (found : σ.at? e.1 = some τ)
      (fault : FirstFault τ e.2 error) : FirstFault σ v (error.under (.key e.1))

/-- What is wrong with a row: its key does not belong there, or its value has a fault. -/
def Flaw (σ : Shape) (e : String × Value) (error : ReadError) : Prop :=
  σ.at? e.1 = none ∧ error = .unknownKey [] e.1 σ.keys ∨
    ∃ τ, σ.at? e.1 = some τ ∧ ∃ fault, FirstFault τ e.2 fault ∧ error = fault.under (.key e.1)

section Keyed

variable {σ : Shape} {v : Value} {error : ReadError}

/-- A value fits a keyed shape when all of its rows sit there. -/
theorem fits_iff (keyed : σ.Keyed) :
    Fits σ v ↔ ∃ rows, σ.rows? v = some rows ∧ ∀ e ∈ rows, Sits σ e := by
  constructor
  · intro fits
    cases fits with
    | text | texts | count => exact keyed.elim
    | rows here known all =>
      refine ⟨_, here, fun e mem => ?_⟩
      obtain ⟨τ, found⟩ := Option.isSome_iff_exists.1 (known e mem)
      exact ⟨τ, found, all e mem τ found⟩
  · rintro ⟨rows, here, all⟩
    refine .rows here (fun e mem => ?_) fun e mem τ found => ?_
    · obtain ⟨τ, found, -⟩ := all e mem
      exact Option.isSome_iff_exists.2 ⟨τ, found⟩
    · obtain ⟨τ', found', fits⟩ := all e mem
      cases found.symm.trans found'
      exact fits

/-- A value has a fault in a keyed shape when it is no table, or when a row is flawed and all rows
before it sit. -/
theorem fault_iff (keyed : σ.Keyed) : FirstFault σ v error ↔
    σ.rows? v = none ∧ error = .wrongType [] ∨ ∃ good e rest,
      σ.rows? v = some (good ++ e :: rest) ∧ (∀ d ∈ good, Sits σ d) ∧ Flaw σ e error := by
  constructor
  · intro fault
    cases fault with
    | text | texts | item | negative | count => exact keyed.elim
    | table _ none => exact .inl ⟨none, rfl⟩
    | unknown here before none => exact .inr ⟨_, _, _, here, before, .inl ⟨none, rfl⟩⟩
    | inside here before found fault =>
      exact .inr ⟨_, _, _, here, before, .inr ⟨_, found, _, fault, rfl⟩⟩
  · rintro (⟨none, rfl⟩ | ⟨good, e, rest, here, before, ⟨none, rfl⟩ | ⟨τ, found, f, fault, rfl⟩⟩)
    · exact .table keyed none
    · exact .unknown here before none
    · exact .inside here before found fault

/-- A value of one row has the fault of that row. -/
theorem fault_of_row {e : String × Value} (here : σ.rows? v = some [e]) (flaw : Flaw σ e error) :
    FirstFault σ v error := by
  rcases flaw with ⟨none, rfl⟩ | ⟨τ, found, f, fault, rfl⟩
  · exact .unknown (here.trans (congrArg some (List.nil_append _).symm)) nofun none
  · exact .inside (here.trans (congrArg some (List.nil_append _).symm)) nofun found fault

end Keyed

/-! ## Readers -/

/-- A reader **follows** a shape when it reads the values that fit it and refuses the others for
their fault. -/
structure Follows {α : Type} (read : Value → ReadResult α) (σ : Shape) : Prop where
  ok : ∀ v, (∃ a, read v = .ok a) ↔ Fits σ v
  error : ∀ v e, read v = .error e ↔ FirstFault σ v e

variable {α β S : Type}

/-- Two readers in a row succeed when both of them do. -/
theorem bind_eq_ok_iff {x : ReadResult α} {f : α → ReadResult β} {b : β} :
    (x >>= f) = .ok b ↔ ∃ a, x = .ok a ∧ f a = .ok b := by
  cases x with
  | error e => exact ⟨nofun, nofun⟩
  | ok a => simp [bind, Except.bind]

/-- They fail when the first one does, or the second one does after the first one. -/
theorem bind_eq_error_iff {x : ReadResult α} {f : α → ReadResult β} {e : ReadError} :
    (x >>= f) = .error e ↔ x = .error e ∨ ∃ a, x = .ok a ∧ f a = .error e := by
  cases x with
  | error d => simp [bind, Except.bind]
  | ok a => simp [bind, Except.bind]

/-- Being told further out does not change whether a value is read, nor what is read. -/
@[simp] theorem under_eq_ok_iff {m : Mark} {r : ReadResult α} {a : α} :
    ReadResult.under m r = .ok a ↔ r = .ok a := by
  cases r with
  | error e => exact ⟨nofun, nofun⟩
  | ok b => exact Iff.rfl

theorem under_eq_error_iff {m : Mark} {r : ReadResult α} {f : ReadError} :
    ReadResult.under m r = .error f ↔ ∃ e, r = .error e ∧ f = e.under m := by
  cases r with
  | error e => simp [ReadResult.under, Except.mapError, eq_comm]
  | ok a => exact ⟨nofun, nofun⟩

theorem map_eq_ok_iff {x : ReadResult α} {f : α → β} {b : β} :
    f <$> x = (.ok b : ReadResult β) ↔ ∃ a, x = .ok a ∧ f a = b := by
  cases x with
  | error e => exact ⟨nofun, nofun⟩
  | ok a => simp [Functor.map, Except.map]

theorem map_eq_error_iff {x : ReadResult α} {f : α → β} {e : ReadError} :
    f <$> x = (.error e : ReadResult β) ↔ x = .error e := by
  cases x with
  | error e => simp [Functor.map, Except.map]
  | ok a => exact ⟨nofun, nofun⟩

/-- What is made of the values that were read does not count. -/
theorem Follows.map {read : Value → ReadResult α} {σ : Shape} (follows : Follows read σ)
    (f : α → β) : Follows (fun v => return f (← read v)) σ := by
  refine ⟨fun v => ?_, fun v e => ?_⟩
  · simp [← follows.ok, map_eq_ok_iff]
  · simp [← follows.error, map_eq_error_iff]

theorem fits_text_iff {v : Value} : Fits .text v ↔ ∃ s, v = .text s := by
  constructor
  · intro fits
    cases fits with
    | text s => exact ⟨s, rfl⟩
    | rows here => cases here
  · rintro ⟨s, rfl⟩
    exact .text s

theorem fits_texts_iff {v : Value} :
    Fits .texts v ↔ ∃ items, v = .array items ∧ ∀ w ∈ items, Fits .text w := by
  constructor
  · intro fits
    cases fits with
    | texts all => exact ⟨_, rfl, all⟩
    | rows here => cases here
  · rintro ⟨items, rfl, all⟩
    exact .texts all

theorem fits_count_iff {v : Value} :
    Fits .count v ↔ ∃ n : Int, v = .integer n ∧ 0 ≤ n ∧ n ≤ maxCount := by
  constructor
  · intro fits
    cases fits with
    | count low high => exact ⟨_, rfl, low, high⟩
    | rows here => cases here
  · rintro ⟨n, rfl, low, high⟩
    exact .count low high

theorem fault_text_iff {v : Value} {error : ReadError} :
    FirstFault .text v error ↔ ¬ Fits .text v ∧ error = .wrongType [] := by
  constructor
  · intro fault
    cases fault with
    | text misfit => exact ⟨misfit, rfl⟩
    | table keyed => exact keyed.elim
    | unknown here | inside here => cases here
  · rintro ⟨misfit, rfl⟩
    exact .text misfit

theorem follows_text : Follows text .text := by
  refine ⟨fun v => ?_, fun v e => ?_⟩
  · rw [fits_text_iff]
    cases v <;> simp [text]
  · rw [fault_text_iff, fits_text_iff]
    cases v <;> simp [text, eq_comm]

/-- The first one that is at fault is the one at the front, or that one is good and it is the first
one of the rest. -/
theorem exists_first_cons {R : Type} {P : R → Prop} {Q : Nat → R → Prop} {x : R} {xs : List R} :
    (∃ good e rest, x :: xs = good ++ e :: rest ∧ (∀ d ∈ good, P d) ∧ Q good.length e) ↔
      Q 0 x ∨ P x ∧ ∃ good e rest,
        xs = good ++ e :: rest ∧ (∀ d ∈ good, P d) ∧ Q (good.length + 1) e := by
  constructor
  · rintro ⟨_ | ⟨d, good⟩, e, rest, split, before, bad⟩
    · cases split
      exact .inl bad
    · cases split
      obtain ⟨first, before⟩ := List.forall_mem_cons.1 before
      exact .inr ⟨first, good, e, rest, rfl, before, bad⟩
  · rintro (bad | ⟨first, good, e, rest, rfl, before, bad⟩)
    · exact ⟨[], x, xs, rfl, nofun, bad⟩
    · exact ⟨x :: good, e, rest, rfl, List.forall_mem_cons.2 ⟨first, before⟩, bad⟩

/-- The items of an array can be read when all of them are texts. -/
theorem textsFrom_ok_iff (number : Nat) (items : List Value) :
    (∃ l, textsFrom number items = .ok l) ↔ ∀ v ∈ items, Fits .text v := by
  induction items generalizing number with
  | nil => exact ⟨nofun, fun _ => ⟨[], rfl⟩⟩
  | cons v rest ih =>
    rw [List.forall_mem_cons, ← ih (number + 1), ← follows_text.ok]
    simp only [textsFrom, bind_eq_ok_iff, under_eq_ok_iff]
    constructor
    · rintro ⟨-, s, here, l, later, -⟩
      exact ⟨⟨s, here⟩, l, later⟩
    · rintro ⟨⟨s, here⟩, l, later⟩
      exact ⟨_, s, here, l, later, rfl⟩

/-- Else the first item that is none is told, by its number. -/
theorem textsFrom_error_iff (number : Nat) (items : List Value) (f : ReadError) :
    textsFrom number items = .error f ↔ ∃ good v rest, items = good ++ v :: rest ∧
      (∀ w ∈ good, Fits .text w) ∧
      ∃ e, FirstFault .text v e ∧ f = e.under (.item (number + good.length)) := by
  induction items generalizing number with
  | nil => exact ⟨nofun, by simp⟩
  | cons v rest ih =>
    -- an item of the rest is told by one more than its place there
    have later := ih (number + 1)
    simp only [Nat.add_right_comm number 1] at later
    rw [exists_first_cons (Q := fun n v => ∃ e, FirstFault .text v e ∧
      f = e.under (.item (number + n)))]
    simp only [← Nat.add_assoc, Nat.add_zero]
    rw [← later, ← follows_text.ok, textsFrom, bind_eq_error_iff]
    simp [under_eq_error_iff, map_eq_error_iff, follows_text.error]

/-- A value has a fault where texts belong when it is no array or an item has one. -/
theorem fault_texts_iff {v : Value} {error : ReadError} : FirstFault .texts v error ↔
    (∀ items, v ≠ .array items) ∧ error = .wrongType [] ∨ ∃ good w rest,
      v = .array (good ++ w :: rest) ∧ (∀ u ∈ good, Fits .text u) ∧
      ∃ e, FirstFault .text w e ∧ error = e.under (.item good.length) := by
  constructor
  · intro fault
    cases fault with
    | texts none => exact .inl ⟨none, rfl⟩
    | item before fault => exact .inr ⟨_, _, _, rfl, before, _, fault, rfl⟩
    | table keyed => exact keyed.elim
    | unknown here | inside here => cases here
  · rintro (⟨none, rfl⟩ | ⟨good, w, rest, rfl, before, e, fault, rfl⟩)
    · exact .texts none
    · exact .item before fault

theorem follows_texts : Follows texts .texts := by
  refine ⟨fun v => ?_, fun v e => ?_⟩
  · rw [fits_texts_iff]
    cases v with
    | array items => simpa [texts] using textsFrom_ok_iff 0 items
    | _ => simp [texts]
  · rw [fault_texts_iff]
    cases v with
    | array items => simpa [texts] using textsFrom_error_iff 0 items e
    | _ => simp [texts, eq_comm]

theorem fault_count_iff {v : Value} {error : ReadError} : FirstFault .count v error ↔
    (∃ n, v = .integer n ∧ minInteger ≤ n ∧ n < 0 ∧ error = .negativeCount []) ∨
      ¬ Fits .count v ∧ (∀ n, v = .integer n → n < minInteger ∨ 0 ≤ n) ∧
        error = .wrongType [] := by
  constructor
  · intro fault
    cases fault with
    | negative low high => exact .inl ⟨_, rfl, low, high, rfl⟩
    | count misfit large => exact .inr ⟨misfit, large, rfl⟩
    | table keyed => exact keyed.elim
    | unknown here | inside here => cases here
  · rintro (⟨n, rfl, low, high, rfl⟩ | ⟨misfit, large, rfl⟩)
    · exact .negative low high
    · exact .count misfit large

theorem follows_count : Follows count .count := by
  refine ⟨fun v => ?_, fun v e => ?_⟩
  · rw [fits_count_iff]
    cases v with
    | integer n =>
      unfold count
      simp only [Value.integer.injEq, exists_eq_left']
      split
      · simp_all
      · split <;> simp_all
    | _ => simp [count]
  · rw [fault_count_iff, fits_count_iff]
    cases v with
    | integer n =>
      unfold count
      simp only [Value.integer.injEq, exists_eq_left', forall_eq']
      split
      · grind
      · split <;> grind
    | _ => simp [count, eq_comm]

section Rows

variable {σ : Shape} {step : S → String × Value → ReadResult S}

/-- Going through rows succeeds when all of them sit. -/
theorem foldlM_ok_iff (ok : ∀ s e, (∃ s', step s e = .ok s') ↔ Sits σ e)
    (rows : List (String × Value)) (s : S) :
    (∃ s', rows.foldlM step s = .ok s') ↔ ∀ e ∈ rows, Sits σ e := by
  induction rows generalizing s with
  | nil => exact ⟨nofun, fun _ => ⟨s, rfl⟩⟩
  | cons e rest ih =>
    rw [List.foldlM_cons, List.forall_mem_cons, ← ok s e]
    simp only [bind_eq_ok_iff]
    constructor
    · rintro ⟨t, s', here, later⟩
      exact ⟨⟨s', here⟩, (ih s').1 ⟨t, later⟩⟩
    · rintro ⟨⟨s', here⟩, all⟩
      obtain ⟨t, later⟩ := (ih s').2 all
      exact ⟨t, s', here, later⟩

/-- Going through rows fails for the flaw of the first one that does not sit. -/
theorem foldlM_error_iff (ok : ∀ s e, (∃ s', step s e = .ok s') ↔ Sits σ e)
    (error : ∀ s e f, step s e = .error f ↔ Flaw σ e f) (rows : List (String × Value)) (s : S)
    (f : ReadError) : rows.foldlM step s = .error f ↔ ∃ good e rest,
      rows = good ++ e :: rest ∧ (∀ d ∈ good, Sits σ d) ∧ Flaw σ e f := by
  induction rows generalizing s with
  | nil => exact ⟨nofun, by simp⟩
  | cons e rest ih =>
    rw [List.foldlM_cons, exists_first_cons (Q := fun _ e => Flaw σ e f), ← ok s e, ← error s e f,
      bind_eq_error_iff]
    simp only [ih, exists_and_right]

/-- A reader that goes through the rows of a value and finds the flaws of a keyed shape follows the
shape. -/
theorem follows_of_rows {read : Value → ReadResult S} (keyed : σ.Keyed) (s : S)
    (reads : ∀ v, read v = (σ.rows? v).elim (.error (.wrongType [])) fun rows => rows.foldlM step s)
    (ok : ∀ s e, (∃ s', step s e = .ok s') ↔ Sits σ e)
    (error : ∀ s e f, step s e = .error f ↔ Flaw σ e f) : Follows read σ := by
  refine ⟨fun v => ?_, fun v f => ?_⟩
  · rw [fits_iff keyed, reads]
    cases σ.rows? v with
    | none => simp
    | some rows => simpa using foldlM_ok_iff ok rows s
  · rw [fault_iff keyed, reads]
    cases σ.rows? v with
    | none => simp [eq_comm]
    | some rows => simpa using foldlM_error_iff ok error rows s f

end Rows

/-! ## Catalogs and sections -/

theorem catalog_eq {read : Value → ReadResult α} (each : Shape) (v : Value) :
    catalog read v = ((Shape.catalog each).rows? v).elim (.error (.wrongType [])) fun rows =>
      rows.foldlM
        (fun (c : Catalog α) e => return c.insert e.1 (← ReadResult.under (.key e.1) (read e.2)))
        Catalog.empty := by
  cases v <;> rfl

theorem follows_catalog {read : Value → ReadResult α} {each : Shape} (follows : Follows read each) :
    Follows (catalog read) (.catalog each) := by
  refine follows_of_rows trivial Catalog.empty (catalog_eq each) (fun c e => ?_) fun c e f => ?_
  · simp [map_eq_ok_iff, follows.ok, Sits, Shape.at?]
  · simp [map_eq_error_iff, under_eq_error_iff, follows.error, Flaw, Shape.at?]

/-- A schema **matches** a record when it has the same keys and what it does with the value of each
follows the shape there. -/
def Schema.Matches (schema : Schema S) (σ : Shape) : Prop := ∃ known, σ = .record known ∧
  List.Forall₂ (fun e k => e.1 = k.1 ∧ ∀ s, Follows (fun v => e.2 v s) k.2) schema known

namespace Schema.Matches

variable {schema : Schema S} {σ : Shape}

theorem keyed (same : schema.Matches σ) : σ.Keyed := by
  obtain ⟨known, rfl, -⟩ := same
  trivial

theorem keys_eq (same : schema.Matches σ) : schema.keys = σ.keys := by
  obtain ⟨known, rfl, same⟩ := same
  show schema.map (·.1) = known.map (·.1)
  induction same with
  | nil => rfl
  | cons here _ ih => exact congrArg₂ List.cons here.1 ih

/-- A key is known to both, or to neither. -/
theorem lookup (same : schema.Matches σ) (k : String) :
    (schema.lookup k = none ∧ σ.at? k = none) ∨ ∃ put τ, schema.lookup k = some put ∧
      σ.at? k = some τ ∧ ∀ s, Follows (fun v => put v s) τ := by
  obtain ⟨known, rfl, same⟩ := same
  unfold Shape.at?
  induction same with
  | nil => exact .inl ⟨rfl, rfl⟩
  | @cons e f schema known here _ ih =>
    obtain ⟨m, put⟩ := e
    obtain ⟨m', τ⟩ := f
    obtain ⟨same, follows⟩ := here
    cases same
    simp only [List.lookup_cons]
    split
    · exact .inr ⟨put, τ, rfl, rfl, follows⟩
    · exact ih

theorem read_eq (same : schema.Matches σ) (s : S) (v : Value) :
    schema.read s v = (σ.rows? v).elim (.error (.wrongType [])) fun rows =>
      rows.foldlM schema.entry s := by
  unfold Schema.read
  rw [same.keys_eq]
  obtain ⟨known, rfl, -⟩ := same
  cases v <;> rfl

/-- **A section is read by its shape.** -/
theorem follows (same : schema.Matches σ) (s : S) : Follows (schema.read s) σ := by
  refine follows_of_rows same.keyed s (same.read_eq s) (fun s e => ?_) fun s e f => ?_
  · unfold Schema.entry Sits
    rcases same.lookup e.1 with ⟨none, none'⟩ | ⟨put, τ, found, found', follows⟩
    · simp [none, none']
    · simp [found, found', (follows s).ok]
  · unfold Schema.entry Flaw
    rcases same.lookup e.1 with ⟨none, none'⟩ | ⟨put, τ, found, found', follows⟩
    · simp [none, none', eq_comm, same.keys_eq]
    · simp [found, found', under_eq_error_iff, (follows s).error]

end Schema.Matches

theorem matches_scenario : scenarioSchema.Matches .scenario :=
  ⟨_, rfl, .cons ⟨rfl, fun _ => follows_text.map _⟩ <|
    .cons ⟨rfl, fun _ => follows_text.map _⟩ .nil⟩

theorem matches_coordinator : coordinatorSchema.Matches .coordinator :=
  ⟨_, rfl, .cons ⟨rfl, fun _ => follows_count.map _⟩ .nil⟩

theorem matches_group : groupSchema.Matches .group :=
  ⟨_, rfl, .cons ⟨rfl, fun _ => follows_text.map _⟩ <|
    .cons ⟨rfl, fun _ => follows_texts.map _⟩ .nil⟩

theorem matches_step : stepSchema.Matches .step :=
  ⟨_, rfl, .cons ⟨rfl, fun _ => follows_text.map _⟩ <|
    .cons ⟨rfl, fun _ => follows_text.map _⟩ <|
    .cons ⟨rfl, fun _ => follows_texts.map _⟩ <|
    .cons ⟨rfl, fun _ => (follows_catalog follows_text).map _⟩ <|
    .cons ⟨rfl, fun _ => follows_text.map _⟩ .nil⟩

theorem matches_document : documentSchema.Matches .document :=
  ⟨_, rfl, .cons ⟨rfl, fun s => matches_scenario.follows s⟩ <|
    .cons ⟨rfl, fun s => matches_coordinator.follows s⟩ <|
    .cons ⟨rfl, fun _ => (follows_catalog (matches_group.follows {})).map _⟩ <|
    .cons ⟨rfl, fun _ => (follows_catalog (matches_step.follows {})).map _⟩ .nil⟩

/-- **A document is read by its shape**: reading it succeeds exactly if it fits, and reports its
fault otherwise. -/
theorem follows_document (d : Draft) : Follows (documentSchema.read d) .document :=
  matches_document.follows d

end Reading

end StepFlow
