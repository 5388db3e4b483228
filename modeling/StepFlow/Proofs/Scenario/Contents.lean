import StepFlow.Proofs.Scenario.Shape
import StepFlow.Proofs.Toml.Distinct
import Mathlib.Data.String.Basic

/-! # What a draft takes from its document

Every entry of a draft is the value at a path of the document: a key of a section, or a name and a
key of the section under it. What is at no path is absent from the draft, and no name of a group, a
step or a variable is in the draft without being in the document, or the other way round.

Main statements: `ascending_byKey`, that the entries of a table are visited by key,
`child?_table`, that what is under a key of a table is its entry, and `holds_of_read`. -/

namespace StepFlow

namespace Reading

open Toml (Value)

/-! ## Paths -/

/-- The value under a key of a value of a keyed shape. -/
def Shape.child? (σ : Shape) (k : String) (v : Value) : Option Value :=
  (σ.rows? v).bind (·.lookup k)

/-- The value at the end of a **path** of keys that belong there. -/
def find? : List String → Shape → Value → Option Value
  | [], _, v => some v
  | k :: path, σ, v => do find? path (← σ.at? k) (← σ.child? k v)

/-- The text that a value is. -/
def text? : Value → Option String
  | .text s => some s
  | _ => none

/-- The texts that are the items of a value. -/
def texts? : Value → Option (List String)
  | .array items => items.mapM text?
  | _ => none

/-- The count that a value is. -/
def count? : Value → Option Nat
  | .integer n => n.toNat?
  | _ => none

end Reading

open Reading
open Toml (Value)

/-- The section of a group **holds** the entries of a value. -/
structure GroupSection.Holds (s : GroupSection) (v : Value) : Prop where
  group : s.group = (find? ["group"] .group v).bind text?
  requirements : s.requirements = ((find? ["requires"] .group v).bind texts?).getD []

/-- The section of a step **holds** the entries of a value. -/
structure StepSection.Holds (s : StepSection) (v : Value) : Prop where
  command : s.command = (find? ["cmd"] .step v).bind text?
  group : s.group = (find? ["group"] .step v).bind text?
  requirements : s.requirements = ((find? ["requires"] .step v).bind texts?).getD []
  env : ∀ k, s.env.get? k = (find? ["env", k] .step v).bind text?
  cwd : s.cwd = (find? ["cwd"] .step v).bind text?

/-- A draft **holds** the entries of a document, and the name of its scenario may be another one
where the document gives none. -/
structure Draft.Holds (d : Draft) (v : Value) (name : Option String) : Prop where
  name : d.name = ((find? ["scenario", "name"] .document v).bind text?).or name
  logDir : d.logDir = (find? ["scenario", "log_dir"] .document v).bind text?
  workers : d.workers = (find? ["coordinator", "max_workers"] .document v).bind count?
  groups : ∀ n, Option.Rel GroupSection.Holds (d.groups.get? n) (find? ["group", n] .document v)
  steps : ∀ n, Option.Rel StepSection.Holds (d.steps.get? n) (find? ["step", n] .document v)

namespace Reading

/-! ## Rows -/

theorem perm_byKey (entries : List (String × Value)) : (byKey entries).Perm entries :=
  List.mergeSort_perm _ _

theorem nodup_byKey {entries : List (String × Value)} (nodup : (entries.map (·.1)).Nodup) :
    ((byKey entries).map (·.1)).Nodup := ((perm_byKey entries).map (·.1)).nodup_iff.2 nodup

/-- The entries of a table are visited by key. -/
theorem ascending_byKey {entries : List (String × Value)} (nodup : (entries.map (·.1)).Nodup) :
    (byKey entries).Pairwise fun a b => a.1 < b.1 := by
  have sorted : (byKey entries).Pairwise fun a b => decide (a.1 ≤ b.1) = true := by
    refine List.pairwise_mergeSort (fun a b c ab bc => ?_) (fun a b => ?_) entries
    · exact decide_eq_true (String.le_trans (of_decide_eq_true ab) (of_decide_eq_true bc))
    · simpa using String.le_total a.1 b.1
  have apart := List.pairwise_map.1 (nodup_byKey nodup)
  exact (sorted.and apart).imp fun both => lt_of_le_of_ne (of_decide_eq_true both.1) both.2

theorem lookup_eq_some_iff_mem {entries : List (String × Value)}
    (nodup : (entries.map (·.1)).Nodup) {k : String} {v : Value} :
    entries.lookup k = some v ↔ (k, v) ∈ entries := by
  induction entries with
  | nil => simp
  | cons e rest ih =>
    obtain ⟨m, w⟩ := e
    obtain ⟨fresh, nodup⟩ := List.nodup_cons.1 nodup
    by_cases same : k = m
    · subst same
      have absent : (k, v) ∉ rest := fun mem => fresh (List.mem_map.2 ⟨_, mem, rfl⟩)
      simp [absent, eq_comm]
    · simp [List.lookup_cons, beq_false_of_ne same, same, ih nodup]

/-- What is under a key of a table is its entry. -/
theorem Shape.child?_table {σ : Shape} (keyed : σ.Keyed) {entries : List (String × Value)}
    (nodup : (entries.map (·.1)).Nodup) (k : String) :
    σ.child? k (.table entries) = entries.lookup k := by
  have rows : σ.rows? (.table entries) = some (byKey entries) := by
    cases σ with
    | text | texts | count => exact keyed.elim
    | catalog | record => rfl
  rw [child?, rows, Option.bind_some]
  refine Option.ext fun v => ?_
  rw [lookup_eq_some_iff_mem (nodup_byKey nodup), lookup_eq_some_iff_mem nodup,
    (perm_byKey entries).mem_iff]

/-- The rows of a distinct value have distinct keys, and distinct values. -/
theorem Shape.distinct_rows {σ : Shape} (nodup : σ.keys.Nodup) {v : Value} (distinct : v.Distinct)
    {rows : List (String × Value)} (here : σ.rows? v = some rows) :
    (rows.map (·.1)).Nodup ∧ ∀ e ∈ rows, e.2.Distinct := by
  have table : ∀ {entries}, (Value.table entries).Distinct → rows = byKey entries →
      (rows.map (·.1)).Nodup ∧ ∀ e ∈ rows, e.2.Distinct := by
    rintro entries distinct rfl
    cases distinct with
    | table nodup all =>
      exact ⟨nodup_byKey nodup, fun e mem => all e ((perm_byKey entries).mem_iff.1 mem)⟩
  have moment : ∀ {m : Toml.Moment}, rows = [(momentKey, .text m.text)] →
      (rows.map (·.1)).Nodup ∧ ∀ e ∈ rows, e.2.Distinct := by
    rintro m rfl
    simpa using Value.Distinct.text _
  unfold rows? at here
  split at here
  · cases here
    cases distinct with
    | array all =>
      refine ⟨?_, fun e mem => all _ (List.of_mem_zip mem).2⟩
      rw [List.zip_eq_zip_take_min, List.map_fst_zip (by simp)]
      exact nodup.sublist (List.take_sublist _ _)
  · exact table distinct (Option.some.inj here).symm
  · exact table distinct (Option.some.inj here).symm
  · exact moment (Option.some.inj here).symm
  · exact moment (Option.some.inj here).symm
  · cases here

/-! ## Sections -/

variable {S α β : Type}

/-- **What going through rows makes of a part**: the value of the row with its key says it, and
without that row the part stays as it was. -/
theorem foldlM_part {step : S → String × Value → ReadResult S} {part : S → β} {k : String}
    {R : Value → β → β → Prop} (sets : ∀ e s s', e.2.Distinct → step s e = .ok s' →
      if e.1 = k then R e.2 (part s) (part s') else part s' = part s)
    {rows : List (String × Value)} {s s' : S} (nodup : (rows.map (·.1)).Nodup)
    (distinct : ∀ e ∈ rows, e.2.Distinct) (done : rows.foldlM step s = .ok s') :
    (rows.lookup k).elim (part s' = part s) fun v => R v (part s) (part s') := by
  induction rows generalizing s with
  | nil =>
    cases done
    rfl
  | cons e rest ih =>
    obtain ⟨m, v⟩ := e
    obtain ⟨fresh, nodup⟩ := List.nodup_cons.1 nodup
    obtain ⟨here, distinct⟩ := List.forall_mem_cons.1 distinct
    rw [List.foldlM_cons] at done
    obtain ⟨t, first, later⟩ := bind_eq_ok_iff.1 done
    have first := sets _ _ _ here first
    have later := ih nodup distinct later
    -- no other row has the key of the first one, so either the first one sets the part or the rest
    by_cases same : m = k
    · subst same
      have absent : rest.lookup m = none := by
        cases found : rest.lookup m with
        | none => rfl
        | some w =>
          have mem := (lookup_eq_some_iff_mem nodup).1 found
          exact absurd (List.mem_map.2 ⟨_, mem, rfl⟩) fresh
      rw [absent, Option.elim_none] at later
      rw [if_pos rfl, ← later] at first
      simpa using first
    · rw [if_neg same] at first
      have other : (k == m) = false := beq_false_of_ne fun h => same h.symm
      rw [first] at later
      simpa [List.lookup_cons, other] using later

/-- The same for all rows of a value. -/
theorem rows_part (σ : Shape) (nodup : σ.keys.Nodup) {step : S → String × Value → ReadResult S}
    (part : S → β) {k : String} {R : Value → β → β → Prop}
    (sets : ∀ e s s', e.2.Distinct → step s e = .ok s' →
      if e.1 = k then R e.2 (part s) (part s') else part s' = part s)
    {v : Value} {s s' : S} (distinct : v.Distinct)
    (done : ((σ.rows? v).elim (.error (.wrongType [])) fun rows => rows.foldlM step s) = .ok s') :
    (σ.child? k v).elim (part s' = part s) fun w => R w (part s) (part s') := by
  unfold Shape.child?
  cases here : σ.rows? v with
  | none => simp [here] at done
  | some rows =>
    obtain ⟨keys, values⟩ := Shape.distinct_rows nodup distinct here
    rw [here] at done
    exact foldlM_part sets keys values done

/-- What a catalog has under a key stands to the value there as reading has it. -/
theorem get?_of_catalog {read : Value → ReadResult α} {H : α → Value → Prop} (each : Shape)
    (reads : ∀ w a, w.Distinct → read w = .ok a → H a w) {v : Value} (distinct : v.Distinct)
    {c : Catalog α} (done : catalog read v = .ok c) (k : String) :
    ((Shape.catalog each).child? k v).elim (c.get? k = none) fun w =>
      ∃ a, c.get? k = some a ∧ H a w := by
  rw [catalog_eq each] at done
  refine rows_part (.catalog each) List.nodup_nil (fun c : Catalog α => c.get? k)
    (R := fun w _ found => ∃ a, found = some a ∧ H a w) (fun e c c' here done => ?_) distinct done
  obtain ⟨a, this, ⟨⟩⟩ := bind_eq_ok_iff.1 done
  rw [Catalog.get?_insert]
  split
  · exact ⟨a, rfl, reads _ a here (under_eq_ok_iff.1 this)⟩
  · rfl

/-- A schema **sets** a part of a section by a key when the value of the key relates what the part
was to what it becomes, and no other key changes it. -/
def Schema.Sets (schema : Schema S) (part : S → β) (k : String) (R : Value → β → β → Prop) : Prop :=
  ∀ e ∈ schema, ∀ v, v.Distinct → ∀ s s', e.2 v s = .ok s' →
    if e.1 = k then R v (part s) (part s') else part s' = part s

section Read

variable {schema : Schema S} {σ : Shape} (same : schema.Matches σ) (nodup : σ.keys.Nodup)
  {v : Value} (distinct : v.Distinct) {s s' : S} (done : schema.read s v = .ok s')

include same nodup distinct done

/-- What reading a section makes of a part. -/
theorem Schema.Sets.read {part : S → β} {k : String} {R : Value → β → β → Prop}
    (sets : schema.Sets part k R) :
    (σ.child? k v).elim (part s' = part s) fun w => R w (part s) (part s') := by
  rw [same.read_eq] at done
  refine rows_part σ nodup part (fun e s s' here done => ?_) distinct done
  unfold Schema.entry at done
  split at done
  · rename_i put found
    obtain ⟨before, after, split, -⟩ := List.lookup_eq_some_iff.1 found
    exact sets (e.1, put) (by rw [split]; simp) e.2 here s s' (under_eq_ok_iff.1 done)
  · cases done

/-- A part that no key of a section changes stays as it was. -/
theorem Schema.read_keeps (part : S → β)
    (keeps : ∀ e ∈ schema, ∀ v s s', e.2 v s = .ok s' → part s' = part s) : part s' = part s := by
  -- such a part is set by any key, to what it was
  have sets : schema.Sets part "" fun _ old new => new = old := by
    intro e mem v _ s s' done
    rw [ite_self]
    exact keeps e mem v s s' done
  have kept := sets.read same nodup distinct done
  cases here : σ.child? "" v <;> simpa [here] using kept

end Read

/-! ## Groups and steps -/

theorem text?_of_text {v : Value} {s : String} (done : text v = .ok s) : text? v = some s := by
  unfold text at done
  split at done
  · cases done
    rfl
  · cases done

theorem mapM_text?_of_textsFrom {number : Nat} {items : List Value} {l : List String}
    (done : textsFrom number items = .ok l) : items.mapM text? = some l := by
  induction items generalizing number l with
  | nil =>
    cases done
    rfl
  | cons w rest ih =>
    obtain ⟨s, here, done⟩ := bind_eq_ok_iff.1 done
    obtain ⟨m, later, ⟨⟩⟩ := bind_eq_ok_iff.1 done
    simp [text?_of_text (under_eq_ok_iff.1 here), ih later]

theorem texts?_of_texts {v : Value} {l : List String} (done : texts v = .ok l) :
    texts? v = some l := by
  unfold texts at done
  split at done
  · exact mapM_text?_of_textsFrom done
  · cases done

theorem count?_of_count {v : Value} {n : Nat} (done : count v = .ok n) : count? v = some n := by
  unfold count at done
  split at done
  · rename_i m
    split at done
    · rename_i fits
      cases done
      obtain ⟨n, rfl⟩ := Int.eq_ofNat_of_zero_le fits.1
      rfl
    · split at done <;> cases done
  · cases done

theorem find?_cons (σ : Shape) {τ : Shape} {k : String} (belongs : σ.at? k = some τ)
    (path : List String) (v : Value) :
    find? (k :: path) σ v = (σ.child? k v).bind (find? path τ) := by
  rw [find?, belongs]
  rfl

theorem find?_one (σ : Shape) {τ : Shape} {k : String} (belongs : σ.at? k = some τ) (v : Value) :
    find? [k] σ v = σ.child? k v := by
  rw [find?_cons σ belongs]
  exact Option.bind_fun_some _

theorem eq_bind_of_elim {o : Option Value} {x : Option α} {f : Value → Option α}
    (h : o.elim (x = none) fun w => f w = x) : x = o.bind f := by
  cases o with
  | none => exact h
  | some w => exact h.symm

theorem eq_getD_of_elim {o : Option Value} {x : List α} {f : Value → Option (List α)}
    (h : o.elim (x = []) fun w => f w = some x) : x = (o.bind f).getD [] := by
  cases o with
  | none => exact h
  | some w => exact (Option.getD_eq_iff.2 (.inl h)).symm

theorem rel_of_elim {o : Option Value} {x : Option α} {r : α → Value → Prop}
    (h : o.elim (x = none) fun w => ∃ a, x = some a ∧ r a w) : Option.Rel r x o := by
  cases o with
  | none =>
    rw [show x = none from h]
    exact .none
  | some w =>
    obtain ⟨a, rfl, here⟩ := h
    exact .some here

/-- The section of a group holds what it is read from. -/
theorem holds_group {v : Value} {s : GroupSection} (distinct : v.Distinct)
    (done : groupSchema.read {} v = .ok s) : s.Holds v := by
  have group : groupSchema.Sets GroupSection.group "group" fun w _ new => text? w = new := by
    simpa [Schema.Sets, groupSchema, map_eq_ok_iff] using fun v _ _ => text?_of_text (v := v)
  have requirements : groupSchema.Sets GroupSection.requirements "requires" fun w _ new =>
      texts? w = some new := by
    simpa [Schema.Sets, groupSchema, map_eq_ok_iff] using fun v _ _ => texts?_of_texts (v := v)
  constructor
  · rw [find?_one .group rfl]
    exact eq_bind_of_elim (group.read matches_group (by decide) distinct done)
  · rw [find?_one .group rfl]
    exact eq_getD_of_elim (requirements.read matches_group (by decide) distinct done)

/-- The section of a step holds what it is read from. -/
theorem holds_step {v : Value} {s : StepSection} (distinct : v.Distinct)
    (done : stepSchema.read {} v = .ok s) : s.Holds v := by
  have command : stepSchema.Sets StepSection.command "cmd" fun w _ new => text? w = new := by
    simpa [Schema.Sets, stepSchema, map_eq_ok_iff] using fun v _ _ => text?_of_text (v := v)
  have group : stepSchema.Sets StepSection.group "group" fun w _ new => text? w = new := by
    simpa [Schema.Sets, stepSchema, map_eq_ok_iff] using fun v _ _ => text?_of_text (v := v)
  have requirements : stepSchema.Sets StepSection.requirements "requires" fun w _ new =>
      texts? w = some new := by
    simpa [Schema.Sets, stepSchema, map_eq_ok_iff] using fun v _ _ => texts?_of_texts (v := v)
  have env : ∀ k, stepSchema.Sets (fun s => s.env.get? k) "env" fun w _ new =>
      ((Shape.catalog .text).child? k w).bind text? = new := by
    intro k
    -- the variables are one level further down, under names of their own
    have under : ∀ w, w.Distinct → ∀ c, catalog text w = .ok c →
        ((Shape.catalog .text).child? k w).bind text? = c.get? k := by
      intro w distinct c done
      refine (eq_bind_of_elim ?_).symm
      have found := get?_of_catalog (H := fun a u => text? u = some a) .text
        (fun _ _ _ => text?_of_text) distinct done k
      cases here : (Shape.catalog .text).child? k w with
      | none => simpa [here] using found
      | some u =>
        obtain ⟨a, found, this⟩ := by simpa [here] using found
        exact this.trans found.symm
    simpa [Schema.Sets, stepSchema, map_eq_ok_iff] using under
  have cwd : stepSchema.Sets StepSection.cwd "cwd" fun w _ new => text? w = new := by
    simpa [Schema.Sets, stepSchema, map_eq_ok_iff] using fun v _ _ => text?_of_text (v := v)
  have read {β : Type} {part : StepSection → β} {k R} (sets : stepSchema.Sets part k R) :=
    sets.read matches_step (by decide) distinct done
  constructor
  · rw [find?_one .step rfl]
    exact eq_bind_of_elim (read command)
  · rw [find?_one .step rfl]
    exact eq_bind_of_elim (read group)
  · rw [find?_one .step rfl]
    exact eq_getD_of_elim (read requirements)
  · intro k
    rw [find?_cons .step rfl, Option.bind_assoc]
    simp only [find?_one (.catalog .text) rfl]
    exact eq_bind_of_elim (read (env k))
  · rw [find?_one .step rfl]
    exact eq_bind_of_elim (read cwd)

/-! ## Drafts -/

section Draft

variable {v : Value} {s s' : Draft}

theorem name_of_scenario (distinct : v.Distinct) (done : scenarioSchema.read s v = .ok s') :
    (Shape.scenario.child? "name" v).elim (s'.name = s.name) fun w => text? w = s'.name := by
  have sets : scenarioSchema.Sets Draft.name "name" fun w _ new => text? w = new := by
    simpa [Schema.Sets, scenarioSchema, map_eq_ok_iff] using fun v _ _ => text?_of_text (v := v)
  exact sets.read matches_scenario (by decide) distinct done

theorem logDir_of_scenario (distinct : v.Distinct) (done : scenarioSchema.read s v = .ok s') :
    (Shape.scenario.child? "log_dir" v).elim (s'.logDir = s.logDir) fun w =>
      text? w = s'.logDir := by
  have sets : scenarioSchema.Sets Draft.logDir "log_dir" fun w _ new => text? w = new := by
    simpa [Schema.Sets, scenarioSchema, map_eq_ok_iff] using fun v _ _ => text?_of_text (v := v)
  exact sets.read matches_scenario (by decide) distinct done

theorem workers_of_coordinator (distinct : v.Distinct)
    (done : coordinatorSchema.read s v = .ok s') :
    (Shape.coordinator.child? "max_workers" v).elim (s'.workers = s.workers) fun w =>
      count? w = s'.workers := by
  have sets : coordinatorSchema.Sets Draft.workers "max_workers" fun w _ new =>
      count? w = new := by
    simpa [Schema.Sets, coordinatorSchema, map_eq_ok_iff] using
      fun v _ _ => count?_of_count (v := v)
  exact sets.read matches_coordinator (by decide) distinct done

/-- The section of a scenario leaves the rest of a draft alone. -/
theorem scenario_keeps (distinct : v.Distinct) (done : scenarioSchema.read s v = .ok s') :
    s'.workers = s.workers ∧ s'.groups = s.groups ∧ s'.steps = s.steps := by
  have kept := Schema.read_keeps matches_scenario (by decide) distinct done
    (fun d : Draft => (d.workers, d.groups, d.steps)) (by simp [scenarioSchema, map_eq_ok_iff])
  simpa using kept

/-- The section of a coordinator leaves the rest of a draft alone. -/
theorem coordinator_keeps (distinct : v.Distinct) (done : coordinatorSchema.read s v = .ok s') :
    s'.name = s.name ∧ s'.logDir = s.logDir ∧ s'.groups = s.groups ∧ s'.steps = s.steps := by
  have kept := Schema.read_keeps matches_coordinator (by decide) distinct done
    (fun d : Draft => (d.name, d.logDir, d.groups, d.steps))
    (by simp [coordinatorSchema, map_eq_ok_iff])
  simpa using kept

theorem elim_find? {k m : String} {σ τ : Shape} (outer : Shape.document.at? k = some σ)
    (inner : σ.at? m = some τ) {p : Prop} {q : Value → Prop}
    (h : (Shape.document.child? k v).elim p fun w => (σ.child? m w).elim p q) :
    (find? [k, m] .document v).elim p q := by
  rw [find?_cons _ outer]
  cases here : Shape.document.child? k v with
  | none => simpa [here] using h
  | some w => simpa [here, find?_one _ inner] using h

end Draft

/-- **A draft holds the document that it is read from.** -/
theorem holds_of_read {v : Value} (distinct : v.Distinct) {d : Draft}
    (done : documentSchema.read {} v = .ok d) : d.Holds v none := by
  -- each part of the draft is set by one section of the document and kept by the others
  have name : documentSchema.Sets Draft.name "scenario" fun w old new =>
      (Shape.scenario.child? "name" w).elim (new = old) fun u => text? u = new := by
    simpa [Schema.Sets, documentSchema, map_eq_ok_iff] using
      ⟨fun _ here _ _ => name_of_scenario here,
        fun _ here _ _ done => (coordinator_keeps here done).1⟩
  have logDir : documentSchema.Sets Draft.logDir "scenario" fun w old new =>
      (Shape.scenario.child? "log_dir" w).elim (new = old) fun u => text? u = new := by
    simpa [Schema.Sets, documentSchema, map_eq_ok_iff] using
      ⟨fun _ here _ _ => logDir_of_scenario here,
        fun _ here _ _ done => (coordinator_keeps here done).2.1⟩
  have workers : documentSchema.Sets Draft.workers "coordinator" fun w old new =>
      (Shape.coordinator.child? "max_workers" w).elim (new = old) fun u => count? u = new := by
    simpa [Schema.Sets, documentSchema, map_eq_ok_iff] using
      ⟨fun _ here _ _ done => (scenario_keeps here done).1,
        fun _ here _ _ => workers_of_coordinator here⟩
  have groups : ∀ n, documentSchema.Sets (fun d => d.groups.get? n) "group" fun w _ new =>
      ((Shape.catalog .group).child? n w).elim (new = none) fun u =>
        ∃ a, new = some a ∧ GroupSection.Holds a u := by
    intro n
    simpa [Schema.Sets, documentSchema, map_eq_ok_iff] using
      ⟨fun _ here _ _ done => by rw [(scenario_keeps here done).2.1],
        fun _ here _ _ done => by rw [(coordinator_keeps here done).2.2.1],
        fun _ here _ done =>
          get?_of_catalog .group (fun _ _ => holds_group) here done n⟩
  have steps : ∀ n, documentSchema.Sets (fun d => d.steps.get? n) "step" fun w _ new =>
      ((Shape.catalog .step).child? n w).elim (new = none) fun u =>
        ∃ a, new = some a ∧ StepSection.Holds a u := by
    intro n
    simpa [Schema.Sets, documentSchema, map_eq_ok_iff] using
      ⟨fun _ here _ _ done => by rw [(scenario_keeps here done).2.2],
        fun _ here _ _ done => by rw [(coordinator_keeps here done).2.2.2],
        fun _ here _ done =>
          get?_of_catalog .step (fun _ _ => holds_step) here done n⟩
  have read {β : Type} {part : Draft → β} {k R} (sets : documentSchema.Sets part k R) :=
    sets.read matches_document (by decide) distinct done
  constructor
  · rw [Option.or_none]
    exact eq_bind_of_elim (elim_find? rfl rfl (read name))
  · exact eq_bind_of_elim (elim_find? rfl rfl (read logDir))
  · exact eq_bind_of_elim (elim_find? rfl rfl (read workers))
  · exact fun n => rel_of_elim (elim_find? rfl rfl (read (groups n)))
  · exact fun n => rel_of_elim (elim_find? rfl rfl (read (steps n)))

end Reading

end StepFlow
