import StepFlow.Toml.Document

/-! # Documents have distinct keys

No table of a document that was read has two entries under one key, however the table came about: by
a header, by dotted keys, or as a value. A value of which this holds all the way down is distinct.

Main statement: `distinct_of_parse`. -/

namespace StepFlow

/-! ## What scanners yield -/

namespace Text.Scan

variable {α β σ : Type}

/-- A scanner **yields** only what has a property, whatever text it reads. -/
def Yields (scan : Scan α) (P : α → Prop) : Prop :=
  ∀ ⦃cs left : List Char⦄ ⦃a : α⦄, scan cs = some (a, left) → P a

variable {P : α → Prop} {Q : β → Prop}

theorem yields_fail : Yields fail P := nofun

theorem yields_ite {c : Prop} [Decidable c] {scan other : Scan α} (here : Yields scan P)
    (there : Yields other P) : Yields (if c then scan else other) P := by
  split
  · exact here
  · exact there

theorem yields_pure {a : α} (holds : P a) : Yields (pure a) P := by
  intro cs left b read
  cases read
  exact holds

/-- What the first scanner yields is what the second one may count on. -/
theorem Yields.bind {scan : Scan α} {next : α → Scan β} (first : Yields scan P)
    (second : ∀ a, P a → Yields (next a) Q) : Yields (scan >>= next) Q := by
  intro cs left b read
  obtain ⟨⟨a, middle⟩, here, there⟩ := Option.bind_eq_some_iff.1 read
  exact second a (first here) there

/-- The same where nothing is known of what the first scanner yields. -/
theorem yields_bind (scan : Scan α) {next : α → Scan β} (second : ∀ a, Yields (next a) Q) :
    Yields (scan >>= next) Q :=
  Yields.bind (P := fun _ => True) (fun _ _ _ _ => trivial) fun a _ => second a

/-- What every round keeps is so after all rounds. -/
theorem yields_iterate {round : α → Scan (α × Bool)} (rounds : ∀ a, P a →
    Yields (round a) fun r => P r.1) {a : α} (holds : P a) : Yields (iterate round a) P := by
  intro cs left b read
  -- on the text that is left, of which every round but the last one takes something
  induction cs using WellFounded.induction (measure List.length).wf generalizing a with
  | _ cs ih =>
    unfold iterate at read
    cases here : round a cs with
    | none => simp [here] at read
    | some r =>
      obtain ⟨⟨c, more⟩, rest⟩ := r
      have kept := rounds a holds here
      simp only [here] at read
      split at read
      · split at read
        · rename_i less
          exact ih rest less kept read
        · cases read
      · cases read
        exact kept

end Text.Scan

namespace Toml

open Text Text.Scan

/-! ## Distinct values -/

/-- A value is **distinct** when the keys of every table in it are. -/
inductive Value.Distinct : Value → Prop where
  | text (s : String) : Distinct (.text s)
  | integer (n : Int) : Distinct (.integer n)
  | float (digits : String) : Distinct (.float digits)
  | boolean (b : Bool) : Distinct (.boolean b)
  | moment (m : Moment) : Distinct (.moment m)
  | array {items : List Value} (all : ∀ v ∈ items, Distinct v) : Distinct (.array items)
  | table {entries : List (String × Value)} (nodup : (entries.map (·.1)).Nodup)
      (all : ∀ e ∈ entries, Distinct e.2) : Distinct (.table entries)

/-- A branch is **distinct** when the keys of every table in it are. -/
inductive Branch.Distinct : Branch → Prop where
  | value {v : Value} (distinct : v.Distinct) : Distinct (.value v)
  | table {origin : Origin} {entries : Entries} (nodup : (entries.map (·.1)).Nodup)
      (all : ∀ e ∈ entries, Distinct e.2) : Distinct (.table origin entries)
  | tables {last : Entries} {others : List Entries}
      (nodup : ∀ entries ∈ last :: others, (entries.map (·.1)).Nodup)
      (all : ∀ entries ∈ last :: others, ∀ e ∈ entries, Distinct e.2) :
      Distinct (.tables last others)

/-- Entries are **distinct** when their keys are and their branches. -/
structure Entries.Distinct (entries : Entries) : Prop where
  nodup : (entries.map (·.1)).Nodup
  all : ∀ e ∈ entries, e.2.Distinct

/-! ## Finished tables -/

theorem finishEntries_eq_map (entries : Entries) :
    finishEntries entries = entries.map fun e => (e.1, e.2.finish) := by
  induction entries with
  | nil => rfl
  | cons e rest ih => rw [finishEntries, ih, List.map_cons]

theorem finishTables_eq_map (tables : List Entries) :
    finishTables tables = tables.map fun entries => .table (finishEntries entries) := by
  induction tables with
  | nil => rfl
  | cons entries rest ih => rw [finishTables, ih, List.map_cons]

/-- Entries whose branches become distinct values become a distinct table. -/
theorem distinct_finishEntries {entries : Entries} (nodup : (entries.map (·.1)).Nodup)
    (all : ∀ e ∈ entries, e.2.finish.Distinct) :
    (Value.table (finishEntries entries)).Distinct := by
  rw [finishEntries_eq_map]
  refine .table ?_ fun e mem => ?_
  · rwa [List.map_map]
  · obtain ⟨d, inside, rfl⟩ := List.mem_map.1 mem
    exact all d inside

/-- A distinct branch becomes a distinct value. -/
theorem Branch.Distinct.finish {b : Branch} (distinct : b.Distinct) : b.finish.Distinct := by
  induction distinct with
  | value distinct => rwa [Branch.finish]
  | table nodup _ ih =>
    rw [Branch.finish]
    exact distinct_finishEntries nodup ih
  | tables nodup _ ih =>
    rw [Branch.finish, finishTables_eq_map]
    refine .array fun v mem => ?_
    rw [List.mem_reverse, ← List.map_cons (f := fun entries => Value.table (finishEntries entries)),
      List.mem_map] at mem
    obtain ⟨entries, mem, rfl⟩ := mem
    exact distinct_finishEntries (nodup entries mem) (ih entries mem)

namespace Entries

variable {entries : Entries} {k : String} {b : Branch}

/-! ## Tables under construction -/

theorem keys_put : (put k b entries).map (·.1) =
    if k ∈ entries.map (·.1) then entries.map (·.1) else entries.map (·.1) ++ [k] := by
  induction entries with
  | nil => simp [put]
  | cons e rest ih =>
    obtain ⟨m, c⟩ := e
    by_cases same : m = k
    · simp [put, same]
    · have other : ¬ k = m := fun h => same h.symm
      simp only [put, beq_iff_eq, same, if_false, List.map_cons, ih, List.mem_cons, other, false_or]
      split <;> simp

theorem mem_put {e : String × Branch} (mem : e ∈ put k b entries) : e.2 = b ∨ e ∈ entries := by
  induction entries with
  | nil => exact .inl (by rw [List.mem_singleton.1 mem])
  | cons d rest ih =>
    obtain ⟨m, c⟩ := d
    unfold put at mem
    split at mem
    · rcases List.mem_cons.1 mem with rfl | mem
      · exact .inl rfl
      · exact .inr (List.mem_cons_of_mem _ mem)
    · rcases List.mem_cons.1 mem with rfl | mem
      · exact .inr List.mem_cons_self
      · exact (ih mem).imp_right (List.mem_cons_of_mem _)

theorem distinct_nil : Distinct [] := ⟨List.nodup_nil, nofun⟩

/-- Putting a distinct branch under a key keeps entries distinct. -/
theorem Distinct.put (distinct : Distinct entries) (branch : b.Distinct) :
    Distinct (entries.put k b) := by
  refine ⟨?_, fun e mem => ?_⟩
  · rw [keys_put]
    split
    · exact distinct.nodup
    · rename_i fresh
      rw [List.nodup_append]
      refine ⟨distinct.nodup, by simp, ?_⟩
      rintro m mem _ last rfl
      exact fresh (List.mem_singleton.1 last ▸ mem)
  · rcases mem_put mem with same | mem
    · rwa [same]
    · exact distinct.all e mem

theorem Distinct.lookup (distinct : Distinct entries) (found : entries.lookup k = some b) :
    b.Distinct := by
  obtain ⟨before, after, split, -⟩ := List.lookup_eq_some_iff.1 found
  exact distinct.all (k, b) (by rw [split]; simp)

/-- A table is distinct when its entries are. -/
theorem Distinct.table (distinct : Distinct entries) (origin : Origin) :
    (Branch.table origin entries).Distinct := .table distinct.nodup distinct.all

/-- An array of tables is distinct when the entries of all of them are. -/
theorem distinct_tables {last : Entries} {others : List Entries}
    (all : ∀ entries ∈ last :: others, Distinct entries) : (Branch.tables last others).Distinct :=
  .tables (fun entries mem => (all entries mem).nodup) fun entries mem => (all entries mem).all

theorem distinct_of_table {origin : Origin} (distinct : (Branch.table origin entries).Distinct) :
    Distinct entries := by
  cases distinct with
  | table nodup all => exact ⟨nodup, all⟩

theorem distinct_of_tables {last : Entries} {others : List Entries}
    (distinct : (Branch.tables last others).Distinct) :
    ∀ entries ∈ last :: others, Distinct entries := by
  cases distinct with
  | tables nodup all => exact fun entries mem => ⟨nodup entries mem, all entries mem⟩

/-- A change **keeps** entries distinct. -/
def Keeps (change : Entries → Option Entries) : Prop :=
  ∀ ⦃entries changed : Entries⦄, Distinct entries → change entries = some changed →
    Distinct changed

/-- A change of the last table of an array keeps the array distinct. -/
theorem Keeps.tables {change : Entries → Option Entries} (keeps : Keeps change)
    {last changed : Entries} {others : List Entries}
    (distinct : (Branch.tables last others).Distinct) (done : change last = some changed) :
    (Branch.tables changed others).Distinct := by
  have all := distinct_of_tables distinct
  refine distinct_tables fun entries mem => ?_
  rcases List.mem_cons.1 mem with rfl | mem
  · exact keeps (all last List.mem_cons_self) done
  · exact all entries (List.mem_cons_of_mem _ mem)

/-- A change keeps entries distinct wherever it is made. -/
theorem Keeps.within {change : Entries → Option Entries} (keeps : Keeps change)
    (path : List String) : Keeps (within change path) := by
  induction path with
  | nil => exact keeps
  | cons k path ih =>
    intro entries changed distinct done
    unfold Entries.within at done
    split at done
    · obtain ⟨inner, made, ⟨⟩⟩ := Option.bind_eq_some_iff.1 done
      exact distinct.put ((ih distinct_nil made).table _)
    · rename_i found
      obtain ⟨inner, made, ⟨⟩⟩ := Option.bind_eq_some_iff.1 done
      exact distinct.put ((ih (distinct_of_table (distinct.lookup found)) made).table _)
    · rename_i found
      obtain ⟨inner, made, ⟨⟩⟩ := Option.bind_eq_some_iff.1 done
      exact distinct.put (Keeps.tables ih (distinct.lookup found) made)
    · cases done

theorem keeps_openTable (k : String) : Keeps (openTable k) := by
  intro entries changed distinct done
  unfold openTable at done
  split at done
  · cases done
    exact distinct.put (distinct_nil.table _)
  · rename_i found
    cases done
    exact distinct.put ((distinct_of_table (distinct.lookup found)).table _)
  · cases done

theorem keeps_openElement (k : String) : Keeps (openElement k) := by
  intro entries changed distinct done
  unfold openElement at done
  split at done
  · cases done
    exact distinct.put (distinct_tables (by simpa using distinct_nil))
  · rename_i found
    cases done
    have all := distinct_of_tables (distinct.lookup found)
    refine distinct.put (distinct_tables fun entries mem => ?_)
    rcases List.mem_cons.1 mem with rfl | mem
    · exact distinct_nil
    · exact all entries mem
  · cases done

/-- Setting a distinct value keeps entries distinct. -/
theorem keeps_setDotted (path : List String) (k : String) {v : Value} (distinct : v.Distinct)
    (byDots : Bool) : Keeps (setDotted path k v byDots) := by
  induction path generalizing byDots with
  | nil =>
    intro entries changed keys done
    unfold setDotted at done
    split at done
    · cases done
      exact keys.put (.value distinct)
    · cases done
  | cons step path ih =>
    intro entries changed keys done
    unfold setDotted at done
    split at done
    · obtain ⟨inner, made, ⟨⟩⟩ := Option.bind_eq_some_iff.1 done
      exact keys.put ((ih true distinct_nil made).table _)
    · cases done
    · rename_i found
      obtain ⟨inner, made, ⟨⟩⟩ := Option.bind_eq_some_iff.1 done
      exact keys.put ((ih _ (distinct_of_table (keys.lookup found)) made).table _)
    · rename_i found
      obtain ⟨inner, made, ⟨⟩⟩ := Option.bind_eq_some_iff.1 done
      exact keys.put (Keeps.tables (ih false) (keys.lookup found) made)
    · cases done

end Entries

/-! ## Documents -/

theorem yields_orFail {α : Type} {P : α → Prop} {o : Option α} (holds : ∀ a, o = some a → P a) :
    Yields (orFail o) P := by
  cases o with
  | none => exact yields_fail
  | some a => exact yields_pure (holds a rfl)

theorem distinct_of_bareValue? {cs : List Char} {v : Value} (read : bareValue? cs = some v) :
    v.Distinct := by
  unfold bareValue? at read
  split at read
  · cases read
    exact .boolean true
  · split at read
    · cases read
      exact .boolean false
    · split at read
      · cases read
        exact .integer _
      · split at read
        · cases read
          exact .float _
        · obtain ⟨m, -, rfl⟩ := Option.map_eq_some_iff.1 read
          exact .moment m

theorem yields_bareValue : Yields bareValue Value.Distinct := by
  unfold bareValue
  refine yields_bind _ fun front => yields_bind _ fun spaced => yields_bind _ fun whole => ?_
  split
  · rename_i read
    exact yields_pure (distinct_of_bareValue? read)
  · exact yields_fail

theorem yields_quoted : Yields (do return Value.text (String.ofList (← quoted))) Value.Distinct :=
  yields_bind _ fun _ => yields_pure (.text _)

section Items

variable {item : Scan Value} (distinct : Yields item Value.Distinct)

include distinct

theorem yields_arrayRest : Yields (arrayRest item) fun items => ∀ v ∈ items, v.Distinct := by
  unfold arrayRest
  refine Yields.bind (P := fun items => ∀ v ∈ items, v.Distinct) (yields_iterate ?_ nofun) ?_
  · intro acc all
    refine yields_bind _ fun _ => yields_bind _ fun _ => yields_ite (yields_pure all) ?_
    refine distinct.bind fun v here => ?_
    have more : ∀ w ∈ v :: acc, w.Distinct := List.forall_mem_cons.2 ⟨here, all⟩
    exact yields_bind _ fun _ => yields_bind _ fun _ =>
      yields_ite (yields_pure more) (yields_bind _ fun _ => yields_pure more)
  · exact fun items all => yields_pure fun v mem => all v (List.mem_reverse.1 mem)

theorem yields_entry : Yields (entry item) fun e => e.2.Distinct := by
  unfold entry
  exact yields_bind _ fun _ => yields_bind _ fun _ => yields_bind _ fun _ =>
    distinct.bind fun v here => yields_pure here

theorem yields_tableRest : Yields (tableRest item) Entries.Distinct := by
  unfold tableRest
  refine yields_iterate (fun acc all => ?_) Entries.distinct_nil
  refine yields_bind _ fun _ => yields_bind _ fun _ => yields_ite (yields_pure all) ?_
  refine (yields_entry distinct).bind fun e here => ?_
  have set : Yields (orFail (acc.set e.1.1 e.1.2 e.2)) Entries.Distinct :=
    yields_orFail fun _ done => Entries.keeps_setDotted _ _ here true all done
  exact set.bind fun acc all => yields_bind _ fun _ => yields_bind _ fun _ =>
    yields_ite (yields_pure all) (yields_bind _ fun _ => yields_pure all)

end Items

theorem yields_value (depth : Nat) : Yields (value depth) Value.Distinct := by
  induction depth with
  | zero =>
    unfold value
    refine yields_bind _ fun c => ?_
    split
    · exact yields_quoted
    · exact yields_quoted
    · exact yields_bareValue
  | succ depth ih =>
    unfold value
    refine yields_bind _ fun c => ?_
    split
    · exact yields_bind _ fun _ => (yields_arrayRest ih).bind fun items all =>
        yields_pure (.array all)
    · exact yields_bind _ fun _ => (yields_tableRest ih).bind fun entries distinct =>
        yields_pure (distinct.table .dotted).finish
    · exact yields_quoted
    · exact yields_quoted
    · exact yields_bareValue

/-- Every line of a document keeps its entries distinct. -/
theorem yields_line {d : Document} (distinct : d.entries.Distinct) :
    Yields (line d) fun d => d.entries.Distinct := by
  -- an entry is set where there is none yet, and a header opens what is there or makes it
  have entry : Yields (entryLine d) fun d => d.entries.Distinct := by
    unfold entryLine
    refine (yields_entry (yields_value maxDepth)).bind fun e here => ?_
    have set : Yields (orFail (d.entries.within (Entries.set e.1.1 e.1.2 e.2) d.path))
        Entries.Distinct := yields_orFail fun _ done =>
      Entries.Keeps.within (Entries.keeps_setDotted _ _ here true) _ distinct done
    exact set.bind fun entries distinct => yields_pure distinct
  have header : Yields (headerLine d) fun d => d.entries.Distinct := by
    unfold headerLine
    refine yields_bind _ fun _ => yields_bind _ fun isElement => yields_bind _ fun key =>
      yields_bind _ fun _ => ?_
    have keeps : Entries.Keeps
        (if isElement then Entries.openElement key.2 else Entries.openTable key.2) := by
      split
      · exact Entries.keeps_openElement _
      · exact Entries.keeps_openTable _
    have opened : Yields (orFail (d.entries.within
        (if isElement then Entries.openElement key.2 else Entries.openTable key.2) key.1))
        Entries.Distinct := yields_orFail fun _ done => keeps.within _ distinct done
    exact opened.bind fun entries distinct => yields_pure distinct
  unfold line
  refine yields_bind _ fun _ => ?_
  refine Yields.bind (P := fun d => d.entries.Distinct) (yields_bind _ fun c => ?_)
    fun d distinct => yields_bind _ fun _ => yields_pure distinct
  split
  · exact yields_pure distinct
  · exact yields_pure distinct
  · exact yields_pure distinct
  · exact yields_pure distinct
  · exact header
  · exact entry

/-- **Documents have distinct keys**, in all of their tables. -/
theorem distinct_of_parse {s : String} {t : List (String × Value)} (read : parse s = some t) :
    (Value.table t).Distinct := by
  have all : Yields document fun d => d.entries.Distinct :=
    yields_iterate (fun d distinct => (yields_line distinct).bind fun d distinct =>
      yields_bind _ fun _ => yields_pure distinct) Entries.distinct_nil
  obtain ⟨d, done, rfl⟩ := Option.map_eq_some_iff.1 read
  unfold Scan.run at done
  split at done
  · rename_i here
    cases done
    exact ((all here).table .implied).finish
  · cases done

end Toml

end StepFlow
