import StepFlow.Proofs.Course.Account

/-! # The table of statuses

The table of statuses of a flow under changes in any order: to any status and back, to the status
that is there already, and for names that are no steps. Whatever the changes were, the table says of
a step what was last set for it. Its count of the failures is kept up from the status that is set
and the one that it replaces alone, and still is the number of failed steps after each change; in
particular it is never lowered when it is zero.

Main statement: `StatusTable.faithful_after`. -/

namespace StepFlow

/-- A status has ended when it is one of two. -/
theorem Status.isTerminal_iff {s : Status} :
    s.isTerminal = true ↔ s = .succeeded ∨ s = .failed := by
  cases s <;> simp [isTerminal]

namespace StatusTable

/-! ## Changes -/

/-- The table **after** changes, the latest first. -/
def after (t : StatusTable) : List (Name × Status) → StatusTable
  | [] => t
  | (n, s) :: earlier => (t.after earlier).set n s

/-- The status that was **last set** for a name by changes, the latest first; before any a step
waits. -/
def lastSet (n : Name) (changes : List (Name × Status)) : Status :=
  (Table.find? n changes).getD .waiting

theorem lastSet_cons (n m : Name) (s : Status) (earlier : List (Name × Status)) :
    lastSet m ((n, s) :: earlier) = if n = m then s else lastSet m earlier := by
  unfold lastSet
  rw [Table.find?]
  split <;> rfl

variable {t : StatusTable} {n : Name}

/-- A change for an unknown name replaces nothing and leaves the table as it is. -/
theorem set_of_unknown (unknown : t.knows n = false) (s : Status) :
    t.previous? n = none ∧ t.set n s = t := by
  have absent : t.entries.get? n = none := by
    unfold knows Table.contains at unknown
    exact Option.isNone_iff_eq_none.1 (Option.isSome_eq_false_iff.1 unknown)
  refine ⟨absent, ?_⟩
  unfold set
  rw [absent]

/-- A change for a known name replaces its status. -/
theorem previous?_of_knows (known : t.knows n = true) : t.previous? n = some (t.status n) := by
  obtain ⟨s, found⟩ := Option.isSome_iff_exists.1 known
  unfold previous? status
  rw [found]
  rfl

/-! ## What the table says -/

/-- A table is **faithful** to a flow and to changes, the latest first, when it has an entry for
each step of the flow with what was last set for it, when its next change does what it is to do, and
when all that it says about all entries together is so. -/
structure Faithful (f : Flow) (changes : List (Name × Status)) (t : StatusTable) : Prop where
  /-- The names of the table are those of the flow. -/
  names : t.entries.names = f.names
  /-- The status of a step is the last one that was set for it. -/
  status : ∀ n ∈ f.names, t.status n = lastSet n changes
  /-- An unknown name waits. -/
  unknown : ∀ n, n ∉ f.names → t.status n = .waiting
  /-- A change for an unknown name replaces nothing and changes nothing. -/
  ignored : ∀ n, n ∉ f.names → ∀ s, t.previous? n = none ∧ t.set n s = t
  /-- A change for a step replaces its status and leaves every other name as it was. -/
  replaced : ∀ n ∈ f.names, ∀ s, t.previous? n = some (t.status n) ∧
    (t.set n s).status n = s ∧ ∀ m, m ≠ n → (t.set n s).status m = t.status m
  /-- There are failures exactly when some step has failed. -/
  hasFailures : t.hasFailures = true ↔ ∃ n ∈ f.names, t.status n = .failed
  /-- The failures were counted. -/
  failures : t.failures = f.names.countP fun n => t.status n = .failed
  /-- A change that takes a failure from the count finds one in it. -/
  lowered : ∀ n, t.previous? n = some .failed → 0 < t.failures
  /-- Everything has ended exactly when every step has succeeded or failed. -/
  allTerminal : t.allTerminal = true ↔
    ∀ n ∈ f.names, t.status n = .succeeded ∨ t.status n = .failed
  /-- The snapshot are the statuses one by one. -/
  snapshot : t.snapshot = f.names.map fun n => (n, t.status n)

section Exact

variable {f : Flow} (e : t.Exact f) (distinct : f.names.Nodup)

include e distinct

/-- There are failures when some step has failed. -/
theorem Exact.hasFailures_iff : t.hasFailures = true ↔ ∃ n ∈ f.names, t.status n = .failed := by
  rw [hasFailures, decide_eq_true_eq, e.failures_eq distinct, gt_iff_lt, List.countP_pos_iff]
  simp only [decide_eq_true_eq]

/-- Everything has ended when every step has succeeded or failed. -/
theorem Exact.allTerminal_iff : t.allTerminal = true ↔
    ∀ n ∈ f.names, t.status n = .succeeded ∨ t.status n = .failed := by
  show t.snapshot.all (·.2.isTerminal) = true ↔ _
  rw [e.snapshot_eq distinct, List.all_map, List.all_eq_true]
  exact forall₂_congr fun n _ => Status.isTerminal_iff

end Exact

/-! ## After any changes -/

section After

variable {f : Flow}

/-- Changes keep the table exact. -/
theorem exact_after (f : Flow) (changes : List (Name × Status)) :
    ((ofFlow f).after changes).Exact f := by
  induction changes with
  | nil => exact exact_ofFlow f
  | cons c earlier ih => exact ih.set c.1 c.2

/-- No change adds or drops a name. -/
theorem knows_after (changes : List (Name × Status)) :
    ((ofFlow f).after changes).knows n = true ↔ n ∈ f.names := by
  induction changes with
  | nil =>
    rw [after, ← Flow.contains_iff_mem_names, knows, Table.contains, get?_ofFlow]
    cases f.contains n <;> simp
  | cons c earlier ih => rw [after, knows_set, ih]

/-- **The status of a step is the last one that was set for it.** -/
theorem status_after (known : n ∈ f.names) (changes : List (Name × Status)) :
    ((ofFlow f).after changes).status n = lastSet n changes := by
  induction changes with
  | nil =>
    rw [after, status, get?_ofFlow, if_pos (Flow.contains_iff_mem_names.2 known)]
    rfl
  | cons c earlier ih =>
    obtain ⟨m, s⟩ := c
    rw [after, status_set, lastSet_cons, ih]
    by_cases same : m = n
    · subst same
      rw [if_pos ⟨rfl, (knows_after earlier).2 known⟩, if_pos rfl]
    · rw [if_neg fun h => same h.1, if_neg same]

end After

/-- **After changes in any order the table of a flow is faithful to them.** The names of a flow are
distinct, since its steps are kept by their names. -/
theorem faithful_after (f : Flow) (distinct : f.names.Nodup) (changes : List (Name × Status)) :
    Faithful f changes ((ofFlow f).after changes) := by
  have exact := exact_after f changes
  have known : ∀ n ∈ f.names, ((ofFlow f).after changes).knows n = true :=
    fun n mem => (knows_after changes).2 mem
  have unknown : ∀ n, n ∉ f.names → ((ofFlow f).after changes).knows n = false := by
    intro n absent
    rw [← Bool.not_eq_true, knows_after]
    exact absent
  refine
    { names := exact.names
      status := fun n mem => status_after mem changes
      unknown := fun n absent => status_of_not_knows (unknown n absent)
      ignored := fun n absent s => set_of_unknown (unknown n absent) s
      replaced := fun n mem s => ⟨previous?_of_knows (known n mem), ?_, fun m different => ?_⟩
      hasFailures := exact.hasFailures_iff distinct
      failures := exact.failures_eq distinct
      lowered := fun n failed => exact.failures_pos failed
      allTerminal := exact.allTerminal_iff distinct
      snapshot := exact.snapshot_eq distinct }
  · rw [status_set, if_pos ⟨rfl, known n mem⟩]
  · rw [status_set, if_neg fun h => different h.1.symm]

/-- A failure that is set twice and then taken back, between changes for a name that is no step. -/
theorem faithful_after_sample :
    Setup.sample.flow.names.Nodup ∧
      Faithful Setup.sample.flow
        [("a", .waiting), ("z", .failed), ("a", .failed), ("a", .failed), ("b", .succeeded)]
        ((ofFlow Setup.sample.flow).after
          [("a", .waiting), ("z", .failed), ("a", .failed), ("a", .failed), ("b", .succeeded)]) :=
  ⟨by decide, faithful_after _ (by decide) _⟩

end StatusTable

end StepFlow
