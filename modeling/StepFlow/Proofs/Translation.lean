import StepFlow.Proofs.Scenario.Checks

/-! # Drafts are translated faithfully

The flow of an accepted draft has exactly the steps and groups that stand in the draft, each in the
group that its section names, and a dependency for what is required and nothing else. The children
of a group are its groups by name and then its steps by name. Entries that require the same step
make one dependency, which is soft if all of them are.

A draft that is refused is so for the first thing that is wrong, in the order of the checks.

Main statement: `Draft.plan_spec`. -/

namespace StepFlow

namespace Draft

open Declaration

variable {d : Draft} {n g : String}

/-! ## Translations -/

/-- The **members** of a group: its groups by name and then its steps by name. -/
def membersOf (d : Draft) (g : String) : List Name :=
  (d.groups.entries.filter (·.2.group = some g)).map (·.1) ++
    (d.steps.entries.filter (·.2.group = some g)).map (·.1)

/-- A plan **translates** a draft when its flow has the steps and groups of the draft and no others,
ascending by name, and a dependency between two of them exactly if an entry of the one requires the
other, soft exactly if all such entries are. -/
structure Translates (d : Draft) (p : Plan) : Prop where
  name : p.name = d.name.getD defaultScenarioName
  logDir : p.logDir = d.logDir
  workers : p.workers = d.workers.getD defaultWorkers
  steps : ∀ t, t ∈ p.flow.steps ↔
    (∃ n s, (n, s) ∈ d.steps.entries ∧ t = ⟨n, s.group, .leaf (action s)⟩) ∨
      ∃ n s, (n, s) ∈ d.groups.entries ∧ t = ⟨n, s.group, .group (d.membersOf n)⟩
  names : p.flow.names.Pairwise (· < ·)
  dependencies : ∀ x, x ∈ p.flow.dependencies ↔
    (∃ entry, d.Requires x.src entry ∧ (Requirement.parse entry).name = x.dst) ∧
      (x.soft = true ↔ ∀ entry, d.Requires x.src entry →
        (Requirement.parse entry).name = x.dst → (Requirement.parse entry).soft = true)
  ends : p.flow.dependencies.Pairwise Before

section Fit

variable (apart : d.Apart) (fit : Fit d.declarations)

include apart fit

/-- A step is put in the group that its section names. -/
theorem groupIn_of_step {s : StepSection} (mem : (n, s) ∈ d.steps.entries) :
    groupIn (members d.declarations) n = s.group := by
  refine Option.ext fun g => ?_
  rw [groupIn_eq_some fit.members, mem_members_declarations, joins_iff_of_step apart mem]

/-- A group is put in the group that its section names. -/
theorem groupIn_of_group {s : GroupSection} (mem : (n, s) ∈ d.groups.entries) :
    groupIn (members d.declarations) n = s.group := by
  refine Option.ext fun g => ?_
  rw [groupIn_eq_some fit.members, mem_members_declarations, joins_iff_of_group apart mem]

/-- The names that are put in a group are its members in order. -/
theorem filter_groupIn (g : String) :
    ((introduced d.declarations).map (·.1)).filter
        (fun n => groupIn (members d.declarations) n = some g) = d.membersOf g := by
  rw [names_introduced_declarations, List.filter_append, Catalog.keys, Catalog.keys,
    List.filter_map, List.filter_map, membersOf]
  congr 2
  · refine List.filter_congr fun e mem => ?_
    simp only [Function.comp_apply, groupIn_of_group apart fit mem]
  · refine List.filter_congr fun e mem => ?_
    simp only [Function.comp_apply, groupIn_of_step apart fit mem]

/-- The steps of the assembled flow are those of the draft. -/
theorem mem_steps_declarations {t : Step} : t ∈ (Flow.assemble d.declarations).steps ↔
    (∃ n s, (n, s) ∈ d.steps.entries ∧ t = ⟨n, s.group, .leaf (action s)⟩) ∨
      ∃ n s, (n, s) ∈ d.groups.entries ∧ t = ⟨n, s.group, .group (d.membersOf n)⟩ := by
  have leaf : ∀ {n s}, (n, s) ∈ d.steps.entries →
      Step.ofIntroduced (introduced d.declarations) (members d.declarations)
        (n, .leaf (action s)) = ⟨n, s.group, .leaf (action s)⟩ := by
    intro n s mem
    rw [Step.ofIntroduced, groupIn_of_step apart fit mem]
  have group : ∀ {n s}, (n, s) ∈ d.groups.entries →
      Step.ofIntroduced (introduced d.declarations) (members d.declarations)
        (n, .group []) = ⟨n, s.group, .group (d.membersOf n)⟩ := by
    intro n s mem
    rw [Step.ofIntroduced, groupIn_of_group apart fit mem]
    simp only [filter_groupIn apart fit]
  rw [Flow.mem_steps_assemble fit.names.nodup]
  constructor
  · rintro ⟨e, mem, rfl⟩
    rw [introduced_declarations, List.mem_append, List.mem_map, List.mem_map] at mem
    rcases mem with ⟨⟨n, s⟩, mem, rfl⟩ | ⟨⟨n, s⟩, mem, rfl⟩
    · exact .inr ⟨n, s, mem, group mem⟩
    · exact .inl ⟨n, s, mem, leaf mem⟩
  · rintro (⟨n, s, mem, rfl⟩ | ⟨n, s, mem, rfl⟩)
    · refine ⟨(n, .leaf (action s)), ?_, leaf mem⟩
      rw [introduced_declarations]
      exact List.mem_append_right _ (List.mem_map.2 ⟨(n, s), mem, rfl⟩)
    · refine ⟨(n, .group []), ?_, group mem⟩
      rw [introduced_declarations]
      exact List.mem_append_left _ (List.mem_map.2 ⟨(n, s), mem, rfl⟩)

end Fit

/-- The dependencies of the assembled flow are what is required in the draft. -/
theorem mem_dependencies_declarations {x : Dependency} :
    x ∈ (Flow.assemble d.declarations).dependencies ↔
      (∃ entry, d.Requires x.src entry ∧ (Requirement.parse entry).name = x.dst) ∧
        (x.soft = true ↔ ∀ entry, d.Requires x.src entry →
          (Requirement.parse entry).name = x.dst → (Requirement.parse entry).soft = true) := by
  rw [Flow.assemble, mem_mergeWaits]
  refine and_congr ?_ (iff_congr Iff.rfl ?_)
  · constructor
    · rintro ⟨w, mem, src, dst⟩
      obtain ⟨entry, requires, parsed⟩ := mem_waits_declarations.1 mem
      exact ⟨entry, src ▸ requires, by rw [parsed, ← dst]⟩
    · rintro ⟨entry, requires, name⟩
      exact ⟨_, requires.mem_waits, rfl, name⟩
  · constructor
    · intro all entry requires name
      exact all _ requires.mem_waits rfl name
    · intro all w mem src dst
      obtain ⟨entry, requires, parsed⟩ := mem_waits_declarations.1 mem
      have soft := all entry (src ▸ requires) (by rw [parsed, ← dst])
      rw [parsed] at soft
      exact soft

/-! ## Refusals -/

/-- What a draft is **refused** for: that it is empty, or if it is not that it has no workers, or if
it has the first step that is a group as well, or if there is none the first reference at fault, or
if there is none what its declarations are refused for. -/
inductive Refused (d : Draft) : ScenarioError → Prop where
  | empty (steps : d.steps.entries = []) (groups : d.groups.entries = []) : Refused d .empty
  | noWorkers (some_ : d.steps.entries ≠ [] ∨ d.groups.entries ≠ [])
      (none : d.workers = some 0) : Refused d .noWorkers
  | stepAndGroup {good rest : List String} {n : String}
      (some_ : d.steps.entries ≠ [] ∨ d.groups.entries ≠ []) (workers : d.workers ≠ some 0)
      (split : d.steps.keys = good ++ n :: rest) (before : ∀ m ∈ good, m ∉ d.groups.keys)
      (both : n ∈ d.groups.keys) : Refused d (.stepAndGroup n)
  | reference {good rest : List (String × Reference)} {r : String × Reference}
      {e : ScenarioError}
      (some_ : d.steps.entries ≠ [] ∨ d.groups.entries ≠ []) (workers : d.workers ≠ some 0)
      (apart : d.Apart) (split : d.references = good ++ r :: rest)
      (before : ∀ r ∈ good, ∀ e, ¬ d.Fault r.1 r.2 e) (fault : d.Fault r.1 r.2 e) : Refused d e
  | flow {e : FlowError} (checked : d.Checked) (refused : Flow.declare d.declarations = .error e) :
      Refused d (.flow e)

variable {e : ScenarioError}

theorem checkSome_eq_error_iff :
    d.checkSome = .error e ↔ (d.steps.entries = [] ∧ d.groups.entries = []) ∧ e = .empty := by
  unfold checkSome Catalog.isEmpty
  cases d.steps.entries <;> cases d.groups.entries <;> simp [eq_comm]

theorem checkWorkers_eq_error_iff :
    d.checkWorkers = .error e ↔ d.workers = some 0 ∧ e = .noWorkers := by
  unfold checkWorkers
  split <;> simp_all [eq_comm]

theorem checkNames_eq_error_iff : d.checkNames = .error e ↔ ∃ good n rest,
    d.steps.keys = good ++ n :: rest ∧ (∀ m ∈ good, m ∉ d.groups.keys) ∧ n ∈ d.groups.keys ∧
      e = .stepAndGroup n := by
  have first : ∀ {n}, d.steps.keys.find? d.groups.contains = some n ↔ ∃ good rest,
      d.steps.keys = good ++ n :: rest ∧ (∀ m ∈ good, m ∉ d.groups.keys) ∧
        n ∈ d.groups.keys := by
    intro n
    rw [List.find?_eq_some_iff_append, Catalog.contains_iff_mem_keys]
    simp only [Bool.not_eq_true', ← Bool.not_eq_true, Catalog.contains_iff_mem_keys]
    constructor
    · rintro ⟨both, good, rest, split, before⟩
      exact ⟨good, rest, split, before, both⟩
    · rintro ⟨good, rest, split, before, both⟩
      exact ⟨both, good, rest, split, before⟩
  unfold checkNames
  constructor
  · intro h
    split at h
    · rename_i n found
      obtain ⟨good, rest, split, before, both⟩ := first.1 found
      cases h
      exact ⟨good, n, rest, split, before, both, rfl⟩
    · cases h
  · rintro ⟨good, n, rest, split, before, both, rfl⟩
    rw [first.2 ⟨good, rest, split, before, both⟩]

theorem checkReferences_eq_error_iff : d.checkReferences = .error e ↔ ∃ good r rest,
    d.references = good ++ r :: rest ∧ (∀ r ∈ good, ∀ e, ¬ d.Fault r.1 r.2 e) ∧
      d.Fault r.1 r.2 e := by
  have first : d.references.findSome? d.fault? = some e ↔ ∃ good r rest,
      d.references = good ++ r :: rest ∧ (∀ r ∈ good, ∀ e, ¬ d.Fault r.1 r.2 e) ∧
        d.Fault r.1 r.2 e := by
    simp only [List.findSome?_eq_some_iff, fault?_eq_some, fault?_eq_none]
    constructor
    · rintro ⟨good, r, rest, split, fault, before⟩
      exact ⟨good, r, rest, split, before, fault⟩
    · rintro ⟨good, r, rest, split, before, fault⟩
      exact ⟨good, r, rest, split, fault, before⟩
  rw [checkReferences_eq, ← first]
  cases d.references.findSome? d.fault? <;> simp

/-- Of a draft that was checked only the flow is refused. -/
theorem Refused.of_checked (refused : d.Refused e) (checked : d.Checked) :
    ∃ e', Flow.declare d.declarations = .error e' ∧ e = .flow e' := by
  cases refused with
  | flow _ refused => exact ⟨_, refused, rfl⟩
  | empty steps groups =>
    exact (checked.some_.elim (fun some_ => some_ steps) fun some_ => some_ groups).elim
  | noWorkers _ none => exact (checked.workers none).elim
  | stepAndGroup _ _ split _ both => exact (checked.apart _ (by rw [split]; simp) both).elim
  | reference _ _ _ split _ fault =>
    exact (checked.references _ (by rw [split]; simp) _ fault).elim

/-- **The checks report the first thing that is wrong.** -/
theorem check_eq_error_iff : d.check = .error e ↔ d.Refused e ∧ ¬ d.Checked := by
  have first : d.check = .error e ↔ (d.steps.entries = [] ∧ d.groups.entries = []) ∧ e = .empty ∨
      (d.steps.entries ≠ [] ∨ d.groups.entries ≠ []) ∧ (d.workers = some 0 ∧ e = .noWorkers ∨
        d.workers ≠ some 0 ∧
          (d.checkNames = .error e ∨ d.Apart ∧ d.checkReferences = .error e)) := by
    rw [check, bind_eq_error_iff, bind_eq_error_iff, bind_eq_error_iff, checkSome_eq_ok_iff,
      checkWorkers_eq_ok_iff, checkNames_eq_ok_iff, checkSome_eq_error_iff,
      checkWorkers_eq_error_iff]
  constructor
  · intro h
    refine ⟨?_, fun checked => by rw [check_eq_ok_iff.2 checked] at h; cases h⟩
    rcases first.1 h with ⟨⟨steps, groups⟩, rfl⟩ | ⟨some_, ⟨none, rfl⟩ | ⟨workers, h | ⟨apart, h⟩⟩⟩
    · exact .empty steps groups
    · exact .noWorkers some_ none
    · obtain ⟨good, n, rest, split, before, both, rfl⟩ := checkNames_eq_error_iff.1 h
      exact .stepAndGroup some_ workers split before both
    · obtain ⟨good, r, rest, split, before, fault⟩ := checkReferences_eq_error_iff.1 h
      exact .reference some_ workers apart split before fault
  · rintro ⟨refused, unchecked⟩
    rw [first, checkNames_eq_error_iff, checkReferences_eq_error_iff]
    cases refused with
    | empty steps groups => exact .inl ⟨⟨steps, groups⟩, rfl⟩
    | noWorkers some_ none => exact .inr ⟨some_, .inl ⟨none, rfl⟩⟩
    | stepAndGroup some_ workers split before both =>
      exact .inr ⟨some_, .inr ⟨workers, .inl ⟨_, _, _, split, before, both, rfl⟩⟩⟩
    | reference some_ workers apart split before fault =>
      exact .inr ⟨some_, .inr ⟨workers, .inr ⟨apart, _, _, _, split, before, fault⟩⟩⟩
    | flow checked => exact absurd checked unchecked

/-! ## Plans -/

theorem plan_eq_ok_iff {p : Plan} : d.plan = .ok p ↔ d.Checked ∧
    ∃ f, Flow.declare d.declarations = .ok f ∧
      p = ⟨d.name.getD defaultScenarioName, d.logDir, d.workers.getD defaultWorkers, f⟩ := by
  rw [plan, bind_eq_ok_iff, check_eq_ok_iff]
  refine and_congr_right fun _ => ?_
  cases Flow.declare d.declarations with
  | error e => exact ⟨nofun, nofun⟩
  | ok f => simp [Except.mapError, bind, Except.bind, pure, Except.pure, eq_comm]

/-- **A draft is refused for the first thing that is wrong.** -/
theorem plan_eq_error_iff : d.plan = .error e ↔ d.Refused e := by
  have made : ((Flow.declare d.declarations).mapError ScenarioError.flow >>= fun flow =>
      pure ⟨d.name.getD defaultScenarioName, d.logDir, d.workers.getD defaultWorkers, flow⟩ :
        Except ScenarioError Plan) = .error e ↔
      ∃ e', Flow.declare d.declarations = .error e' ∧ e = .flow e' := by
    cases Flow.declare d.declarations with
    | error e' => simp [Except.mapError, bind, Except.bind, eq_comm]
    | ok f => exact ⟨nofun, nofun⟩
  rw [plan, bind_eq_error_iff, check_eq_ok_iff, check_eq_error_iff, made]
  constructor
  · rintro (⟨refused, -⟩ | ⟨checked, e', refused, rfl⟩)
    · exact refused
    · exact .flow checked refused
  · intro refused
    by_cases checked : d.Checked
    · exact .inr ⟨checked, refused.of_checked checked⟩
    · exact .inl ⟨refused, checked⟩

/-- **Drafts are translated faithfully.** A plan of a draft translates it, and a draft is refused
for an error exactly if that is the first thing that is wrong with it. -/
theorem plan_spec (d : Draft) :
    (∀ p, d.plan = .ok p → d.Translates p) ∧ ∀ e, d.plan = .error e ↔ d.Refused e := by
  refine ⟨fun p planned => ?_, fun e => ?_⟩
  · obtain ⟨checked, f, declared, rfl⟩ := plan_eq_ok_iff.1 planned
    obtain ⟨fit, -, rfl⟩ := Flow.declare_eq_ok_iff.1 declared
    exact
      { name := rfl
        logDir := rfl
        workers := rfl
        steps := fun t => mem_steps_declarations checked.apart fit
        names := Flow.ascending_assemble fit.names.nodup
        dependencies := fun x => mem_dependencies_declarations
        ends := pairwise_mergeWaits _ }
  · exact plan_eq_error_iff

/-- The small draft can be planned. -/
theorem plan_sample :
    sample.plan = .ok ⟨defaultScenarioName, none, defaultWorkers, sampleFlow⟩ := by
  have checked : sample.check = .ok () := by decide +kernel
  rw [plan, checked, declare_sample]
  rfl

/-- The plan of the small draft translates it, so its group has the one step that names it and waits
softly for the other one. -/
theorem plan_spec_sample :
    sample.plan = .ok ⟨defaultScenarioName, none, defaultWorkers, sampleFlow⟩ ∧
      sample.Translates ⟨defaultScenarioName, none, defaultWorkers, sampleFlow⟩ :=
  ⟨plan_sample, (plan_spec sample).1 _ plan_sample⟩

end Draft

end StepFlow
