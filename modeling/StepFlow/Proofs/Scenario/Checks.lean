import StepFlow.Proofs.Flow.Accepted
import StepFlow.Scenario.Plan

/-! # What drafts say and how they are checked

A draft is looked at twice, before its flow is declared and while it is. Both look at the same
names, memberships and requirements, the one in the sections of the draft and the other in flat
lists of declarations. What a draft says is stated here apart from both, together with how either
reads it.

The references of a draft are checked in order, those of steps by name and then those of groups by
name, of each the requirements and then the group, and the first one at fault is reported.

Main statements: `introduced_declarations`, `mem_members_declarations` and
`mem_waits_declarations`; `check_eq_ok_iff` and `check_eq_error_iff`. -/

namespace StepFlow

theorem Requirement.eq_parts (r : Requirement) : r = ⟨r.name, r.soft⟩ := rfl

namespace Draft

variable {d : Draft} {n g entry : String}

/-! ## What a draft says -/

/-- A name is **declared** when it is that of a step or of a group. -/
def Declared (d : Draft) (n : String) : Prop := n ∈ d.steps.keys ∨ n ∈ d.groups.keys

/-- A step or a group **requires** what one of its entries stands for. -/
def Requires (d : Draft) (n entry : String) : Prop :=
  (∃ s, (n, s) ∈ d.steps.entries ∧ entry ∈ s.requirements) ∨
    ∃ s, (n, s) ∈ d.groups.entries ∧ entry ∈ s.requirements

/-- A step or a group **joins** the group that it names. -/
def Joins (d : Draft) (n g : String) : Prop :=
  (∃ s, (n, s) ∈ d.steps.entries ∧ s.group = some g) ∨
    ∃ s, (n, s) ∈ d.groups.entries ∧ s.group = some g

theorem Requires.declared (requires : d.Requires n entry) : d.Declared n := by
  rcases requires with ⟨s, mem, -⟩ | ⟨s, mem, -⟩
  · exact .inl (List.mem_map_of_mem (f := (·.1)) mem)
  · exact .inr (List.mem_map_of_mem (f := (·.1)) mem)

theorem Joins.declared (joins : d.Joins n g) : d.Declared n := by
  rcases joins with ⟨s, mem, -⟩ | ⟨s, mem, -⟩
  · exact .inl (List.mem_map_of_mem (f := (·.1)) mem)
  · exact .inr (List.mem_map_of_mem (f := (·.1)) mem)

theorem declares_iff : d.declares n = true ↔ d.Declared n := by
  rw [declares, Bool.or_eq_true, Catalog.contains_iff_mem_keys, Catalog.contains_iff_mem_keys]
  exact Iff.rfl

/-- The names of steps and of groups are **apart** when no name is both. -/
def Apart (d : Draft) : Prop := ∀ n ∈ d.steps.keys, n ∉ d.groups.keys

/-- Two sections under one name are one section. -/
private theorem eq_of_mem_entries {α : Type} {c : Catalog α} {s t : α} (hs : (n, s) ∈ c.entries)
    (ht : (n, t) ∈ c.entries) : s = t := by
  rw [Catalog.mem_iff_get?] at hs ht
  rw [hs, Option.some.injEq] at ht
  exact ht

section Sections

variable (apart : d.Apart)

include apart

/-- Where names are apart, a step joins the group that its section names. -/
theorem joins_iff_of_step {s : StepSection} (step : (n, s) ∈ d.steps.entries) :
    d.Joins n g ↔ s.group = some g := by
  constructor
  · rintro (⟨t, mem, group⟩ | ⟨t, mem, -⟩)
    · rw [eq_of_mem_entries step mem, group]
    · exact (apart n (List.mem_map_of_mem (f := (·.1)) step)
        (List.mem_map_of_mem (f := (·.1)) mem)).elim
  · exact fun group => .inl ⟨s, step, group⟩

/-- Where names are apart, a group joins the group that its section names. -/
theorem joins_iff_of_group {s : GroupSection} (group : (n, s) ∈ d.groups.entries) :
    d.Joins n g ↔ s.group = some g := by
  constructor
  · rintro (⟨t, mem, -⟩ | ⟨t, mem, outer⟩)
    · exact (apart n (List.mem_map_of_mem (f := (·.1)) mem)
        (List.mem_map_of_mem (f := (·.1)) group)).elim
    · rw [eq_of_mem_entries group mem, outer]
  · exact fun outer => .inr ⟨s, group, outer⟩

/-- Where names are apart, a step or a group joins one group at most. -/
theorem Joins.unique {h : String} (joins : d.Joins n g) (other : d.Joins n h) : g = h := by
  rcases joins with ⟨s, mem, group⟩ | ⟨s, mem, group⟩
  · rw [joins_iff_of_step apart mem, group] at other
    exact Option.some.inj other
  · rw [joins_iff_of_group apart mem, group] at other
    exact Option.some.inj other

end Sections

/-! ## The declarations of a draft -/

section Declarations

open Declaration

variable (group : Option String) (requirements : List String)

theorem introduced_relations : introduced (relations n group requirements) = [] := by
  cases group <;>
    simp [introduced, relations, List.filterMap_map, Function.comp_def, introduces?]

theorem members_relations :
    members (relations n group requirements) = group.toList.map (n, ·) := by
  cases group <;> simp [members, relations, List.filterMap_map, Function.comp_def, member?]

theorem waits_relations : waits (relations n group requirements) =
    requirements.map fun entry =>
      ⟨n, (Requirement.parse entry).name, (Requirement.parse entry).soft⟩ := by
  cases group <;>
    simp [waits, relations, List.filterMap_cons, List.filterMap_map, Function.comp_def, wait?]

/-- The names that a draft introduces: those of groups and then those of steps. -/
theorem introduced_declarations : introduced d.declarations =
    (d.groups.entries.map fun e => (e.1, Kind.group [])) ++
      d.steps.entries.map fun e => (e.1, Kind.leaf (action e.2)) := by
  have groups : ∀ e : String × GroupSection,
      (groupDeclarations e.1 e.2).filterMap introduces? = [(e.1, Kind.group [])] := fun e =>
    congrArg (List.cons _) (introduced_relations e.2.group e.2.requirements)
  have steps : ∀ e : String × StepSection,
      (stepDeclarations e.1 e.2).filterMap introduces? = [(e.1, Kind.leaf (action e.2))] :=
    fun e => congrArg (List.cons _) (introduced_relations e.2.group e.2.requirements)
  rw [introduced, declarations, List.filterMap_append, List.filterMap_flatMap,
    List.filterMap_flatMap]
  simp only [groups, steps, ← List.map_eq_flatMap]

theorem names_introduced_declarations :
    (introduced d.declarations).map (·.1) = d.groups.keys ++ d.steps.keys := by
  rw [introduced_declarations, List.map_append, List.map_map, List.map_map]
  rfl

theorem mem_names_introduced :
    n ∈ (introduced d.declarations).map (·.1) ↔ d.Declared n := by
  rw [names_introduced_declarations, List.mem_append]
  exact Or.comm

/-- What is introduced as a group is a group of the draft. -/
theorem mem_groups_of_introduced {children : List Name}
    (h : (g, Kind.group children) ∈ introduced d.declarations) : g ∈ d.groups.keys := by
  rw [introduced_declarations, List.mem_append, List.mem_map, List.mem_map] at h
  rcases h with ⟨e, he, same⟩ | ⟨e, -, same⟩
  · cases same
    exact List.mem_map_of_mem (f := (·.1)) he
  · cases same

/-- What is introduced as a leaf is a step of the draft. -/
theorem mem_steps_of_introduced {leaf : Action}
    (h : (n, Kind.leaf leaf) ∈ introduced d.declarations) : n ∈ d.steps.keys := by
  rw [introduced_declarations, List.mem_append, List.mem_map, List.mem_map] at h
  rcases h with ⟨e, -, same⟩ | ⟨e, he, same⟩
  · cases same
  · cases same
    exact List.mem_map_of_mem (f := (·.1)) he

/-- What is declared is declared by a step or by a group. -/
private theorem mem_filterMap_declarations {β : Type} {pick : Declaration → Option β} {b : β} :
    b ∈ d.declarations.filterMap pick ↔
      (∃ e ∈ d.steps.entries, b ∈ (stepDeclarations e.1 e.2).filterMap pick) ∨
        ∃ e ∈ d.groups.entries, b ∈ (groupDeclarations e.1 e.2).filterMap pick := by
  rw [declarations, List.filterMap_append, List.filterMap_flatMap, List.filterMap_flatMap,
    List.mem_append, List.mem_flatMap, List.mem_flatMap, or_comm]

/-- The memberships that a draft declares are those that it states. -/
theorem mem_members_declarations : (n, g) ∈ members d.declarations ↔ d.Joins n g := by
  have one : ∀ {k : String} {group : Option String} {requirements : List String},
      (n, g) ∈ members (relations k group requirements) ↔ k = n ∧ group = some g := by
    intro k group requirements
    simp [members_relations, and_comm]
  have sections : ∀ {β : Type} (es : List (String × β)) (group : β → Option String)
      (requirements : β → List String),
      (∃ e ∈ es, (n, g) ∈ members (relations e.1 (group e.2) (requirements e.2))) ↔
        ∃ s, (n, s) ∈ es ∧ group s = some g := by
    intro β es group requirements
    constructor
    · rintro ⟨⟨k, s⟩, mem, inside⟩
      obtain ⟨rfl, joins⟩ := one.1 inside
      exact ⟨s, mem, joins⟩
    · rintro ⟨s, mem, joins⟩
      exact ⟨(n, s), mem, one.2 ⟨rfl, joins⟩⟩
  rw [members, mem_filterMap_declarations, Joins]
  exact or_congr (sections d.steps.entries (·.group) (·.requirements))
    (sections d.groups.entries (·.group) (·.requirements))

/-- The dependencies that a draft declares are those that its requirements stand for. -/
theorem mem_waits_declarations {x : Dependency} : x ∈ waits d.declarations ↔
    ∃ entry, d.Requires x.src entry ∧ Requirement.parse entry = ⟨x.dst, x.soft⟩ := by
  have one : ∀ {k : String} {group : Option String} {requirements : List String},
      x ∈ waits (relations k group requirements) ↔
        k = x.src ∧ ∃ entry ∈ requirements, Requirement.parse entry = ⟨x.dst, x.soft⟩ := by
    intro k group requirements
    rw [waits_relations, List.mem_map]
    constructor
    · rintro ⟨entry, mem, rfl⟩
      exact ⟨rfl, entry, mem, (Requirement.parse entry).eq_parts⟩
    · rintro ⟨rfl, entry, mem, parsed⟩
      exact ⟨entry, mem, by rw [parsed]⟩
  rw [waits, mem_filterMap_declarations]
  constructor
  · rintro (⟨⟨k, s⟩, mem, inside⟩ | ⟨⟨k, s⟩, mem, inside⟩)
    · obtain ⟨rfl, entry, among, parsed⟩ := one.1 inside
      exact ⟨entry, .inl ⟨s, mem, among⟩, parsed⟩
    · obtain ⟨rfl, entry, among, parsed⟩ := one.1 inside
      exact ⟨entry, .inr ⟨s, mem, among⟩, parsed⟩
  · rintro ⟨entry, ⟨s, mem, among⟩ | ⟨s, mem, among⟩, parsed⟩
    · exact .inl ⟨(x.src, s), mem, one.2 ⟨rfl, entry, among, parsed⟩⟩
    · exact .inr ⟨(x.src, s), mem, one.2 ⟨rfl, entry, among, parsed⟩⟩

/-- What is required is declared as a dependency. -/
theorem Requires.mem_waits (requires : d.Requires n entry) :
    ⟨n, (Requirement.parse entry).name, (Requirement.parse entry).soft⟩ ∈
      waits d.declarations :=
  mem_waits_declarations.2 ⟨entry, requires, (Requirement.parse entry).eq_parts⟩

end Declarations

/-! ## References -/

/-- A **reference** of a step or a group is one of its requirements, or its group. -/
inductive Reference where
  | requirement (entry : String)
  | group (name : String)

/-- The references of a step or a group, each with its name: the requirements and then the group. -/
def referencesOf (n : String) (requirements : List String) (group : Option String) :
    List (String × Reference) :=
  (requirements.map fun entry => (n, .requirement entry)) ++
    group.toList.map fun g => (n, .group g)

/-- The **references** of a draft in the order in which they are checked: those of the steps by name
and then those of the groups by name. -/
def references (d : Draft) : List (String × Reference) :=
  (d.steps.entries.flatMap fun e => referencesOf e.1 e.2.requirements e.2.group) ++
    d.groups.entries.flatMap fun e => referencesOf e.1 e.2.requirements e.2.group

/-- What is wrong with a reference of a step or a group. -/
inductive Fault (d : Draft) (n : String) : Reference → ScenarioError → Prop where
  | empty {entry : String} (h : (Requirement.parse entry).name = "") :
      Fault d n (.requirement entry) (.emptyRequirement n)
  | unknown {entry : String} (some_ : (Requirement.parse entry).name ≠ "")
      (h : ¬ d.Declared (Requirement.parse entry).name) :
      Fault d n (.requirement entry) (.unknownRequirement n (Requirement.parse entry).name)
  | group {g : String} (h : g ∉ d.groups.keys) : Fault d n (.group g) (.unknownGroup n g)

/-- The test of one reference. -/
def fault? (d : Draft) (r : String × Reference) : Option ScenarioError :=
  match r.2 with
  | .requirement entry => d.requirementError? r.1 entry
  | .group g => d.groupError? r.1 (some g)

@[simp] theorem fault?_requirement :
    d.fault? (n, .requirement entry) = d.requirementError? n entry := rfl

@[simp] theorem fault?_group : d.fault? (n, .group g) = d.groupError? n (some g) := rfl

theorem mem_referencesOf {k : String} {requirements : List String} {group : Option String}
    {r : Reference} : (n, r) ∈ referencesOf k requirements group ↔
      n = k ∧ ((∃ entry ∈ requirements, r = .requirement entry) ∨ ∃ g ∈ group, r = .group g) := by
  simp only [referencesOf, List.mem_append, List.mem_map, Prod.mk.injEq, Option.mem_toList,
    Option.mem_def, eq_comm (b := n), eq_comm (b := r)]
  constructor
  · rintro (⟨entry, mem, rfl, rfl⟩ | ⟨g, mem, rfl, rfl⟩)
    · exact ⟨rfl, .inl ⟨entry, mem, rfl⟩⟩
    · exact ⟨rfl, .inr ⟨g, mem, rfl⟩⟩
  · rintro ⟨rfl, ⟨entry, mem, rfl⟩ | ⟨g, mem, rfl⟩⟩
    · exact .inl ⟨entry, mem, rfl, rfl⟩
    · exact .inr ⟨g, mem, rfl, rfl⟩

/-- The requirements that are checked are those that stand in the draft. -/
theorem mem_references_requirement :
    (n, .requirement entry) ∈ d.references ↔ d.Requires n entry := by
  simp [references, mem_referencesOf, Requires]

/-- The memberships that are checked are those that stand in the draft. -/
theorem mem_references_group : (n, .group g) ∈ d.references ↔ d.Joins n g := by
  simp [references, mem_referencesOf, Joins]

theorem requirementError?_eq_some {e : ScenarioError} :
    d.requirementError? n entry = some e ↔ d.Fault n (.requirement entry) e := by
  simp only [requirementError?]
  constructor
  · intro h
    split at h
    · rename_i empty
      cases h
      exact .empty (String.isEmpty_iff.1 empty)
    · rename_i some_
      split at h
      · rename_i unknown
        cases h
        refine .unknown (fun empty => some_ (String.isEmpty_iff.2 empty)) fun known => ?_
        rw [declares_iff.2 known] at unknown
        cases unknown
      · cases h
  · intro fault
    cases fault with
    | empty h => rw [if_pos (String.isEmpty_iff.2 h)]
    | unknown some_ h =>
      rw [if_neg fun empty => some_ (String.isEmpty_iff.1 empty), if_pos]
      rw [Bool.not_eq_true', ← Bool.not_eq_true, declares_iff]
      exact h

theorem groupError?_eq_some {e : ScenarioError} :
    d.groupError? n (some g) = some e ↔ d.Fault n (.group g) e := by
  simp only [groupError?]
  constructor
  · intro h
    split at h
    · cases h
    · rename_i unknown
      cases h
      exact .group fun known => unknown (Catalog.contains_iff_mem_keys.2 known)
  · intro fault
    cases fault with
    | group h => rw [if_neg fun known => h (Catalog.contains_iff_mem_keys.1 known)]

/-- The test of a reference reports what is wrong with it. -/
theorem fault?_eq_some {r : String × Reference} {e : ScenarioError} :
    d.fault? r = some e ↔ d.Fault r.1 r.2 e := by
  obtain ⟨n, r⟩ := r
  cases r with
  | requirement entry => rw [fault?_requirement, requirementError?_eq_some]
  | group g => rw [fault?_group, groupError?_eq_some]

/-- A reference is without fault when the test reports nothing. -/
theorem fault?_eq_none {r : String × Reference} :
    d.fault? r = none ↔ ∀ e, ¬ d.Fault r.1 r.2 e := by
  rw [Option.eq_none_iff_forall_ne_some]
  exact forall_congr' fun e => not_congr fault?_eq_some

/-- The check of references reports the first one at fault. -/
theorem checkReferences_eq : d.checkReferences =
    match d.references.findSome? d.fault? with
    | some e => .error e
    | none => .ok () := by
  -- the references of one section are those of its requirements and then that of its group
  have one : ∀ n requirements group,
      (referencesOf n requirements group).findSome? d.fault? =
        d.referenceError? n requirements group := by
    intro n requirements group
    have each : (d.fault? ∘ fun entry => (n, Reference.requirement entry)) =
        d.requirementError? n := by
      funext entry
      rw [Function.comp_apply, fault?_requirement]
    have own : (group.toList.map fun g => (n, Reference.group g)).findSome? d.fault? =
        d.groupError? n group := by
      cases group with
      | none => simp [groupError?]
      | some g =>
        simp only [Option.toList_some, List.map_cons, List.map_nil, List.findSome?_cons, fault?]
        cases d.groupError? n (some g) <;> rfl
    rw [referencesOf, referenceError?, List.findSome?_append, List.findSome?_map, each, own]
  have flat : ∀ {α : Type} (es : List α) (f : α → List (String × Reference)),
      (es.flatMap f).findSome? d.fault? = es.findSome? fun x => (f x).findSome? d.fault? := by
    intro α es f
    induction es with
    | nil => rfl
    | cons x rest ih =>
      rw [List.flatMap_cons, List.findSome?_append, ih, List.findSome?_cons]
      cases (f x).findSome? d.fault? <;> rfl
  have all : d.references.findSome? d.fault? =
      (d.steps.entries.findSome? fun e => d.referenceError? e.1 e.2.requirements e.2.group).or
        (d.groups.entries.findSome? fun e =>
          d.referenceError? e.1 e.2.requirements e.2.group) := by
    rw [references, List.findSome?_append, flat, flat]
    simp only [one]
  rw [all]
  rfl

/-! ## All checks -/

/-- A draft is **checked** when it has a step or a group, workers, names that are apart, and
references to what there is. -/
structure Checked (d : Draft) : Prop where
  some_ : d.steps.entries ≠ [] ∨ d.groups.entries ≠ []
  workers : d.workers ≠ some 0
  apart : d.Apart
  references : ∀ r ∈ d.references, ∀ e, ¬ d.Fault r.1 r.2 e

namespace Checked

variable (checked : d.Checked)

include checked

/-- What is required in a checked draft is declared. -/
theorem requirement (requires : d.Requires n entry) :
    (Requirement.parse entry).name ≠ "" ∧ d.Declared (Requirement.parse entry).name := by
  have faultless := checked.references _ (mem_references_requirement.2 requires)
  have some_ : (Requirement.parse entry).name ≠ "" := fun empty => faultless _ (.empty empty)
  refine ⟨some_, ?_⟩
  by_contra unknown
  exact faultless _ (.unknown some_ unknown)

/-- The groups that are joined in a checked draft are groups. -/
theorem group (joins : d.Joins n g) : g ∈ d.groups.keys := by
  by_contra unknown
  exact checked.references _ (mem_references_group.2 joins) _ (.group unknown)

end Checked

theorem checkSome_eq_ok_iff :
    d.checkSome = .ok () ↔ d.steps.entries ≠ [] ∨ d.groups.entries ≠ [] := by
  unfold checkSome Catalog.isEmpty
  cases d.steps.entries <;> cases d.groups.entries <;> simp

theorem checkWorkers_eq_ok_iff : d.checkWorkers = .ok () ↔ d.workers ≠ some 0 := by
  unfold checkWorkers
  split <;> simp_all

theorem checkNames_eq_ok_iff : d.checkNames = .ok () ↔ d.Apart := by
  unfold checkNames
  cases found : d.steps.keys.find? d.groups.contains with
  | none =>
    simp only [List.find?_eq_none, Catalog.contains_iff_mem_keys] at found
    exact iff_of_true rfl found
  | some n =>
    refine iff_of_false nofun fun apart => ?_
    exact apart n (List.mem_of_find?_eq_some found)
      (Catalog.contains_iff_mem_keys.1 (List.find?_some found))

theorem checkReferences_eq_ok_iff :
    d.checkReferences = .ok () ↔ ∀ r ∈ d.references, ∀ e, ¬ d.Fault r.1 r.2 e := by
  simp only [← fault?_eq_none, ← List.findSome?_eq_none_iff, checkReferences_eq]
  cases d.references.findSome? d.fault? <;> simp

/-- **The checks are passed by what is checked.** -/
theorem check_eq_ok_iff : d.check = .ok () ↔ d.Checked := by
  rw [check, bind_eq_ok_iff, bind_eq_ok_iff, bind_eq_ok_iff, checkSome_eq_ok_iff,
    checkWorkers_eq_ok_iff, checkNames_eq_ok_iff, checkReferences_eq_ok_iff]
  constructor
  · rintro ⟨some_, workers, apart, references⟩
    exact ⟨some_, workers, apart, references⟩
  · rintro ⟨some_, workers, apart, references⟩
    exact ⟨some_, workers, apart, references⟩

/-! ## A small draft -/

/-- A small draft: a step, a group that waits for it softly, and a step in the group. -/
def sample : Draft where
  groups := { entries := [("g", { requirements := [" ~ s"] })], ascending := by simp }
  steps :=
    { entries := [("s", { env := .empty }), ("t", { group := some "g", env := .empty })]
      ascending := by decide }

/-- The flow of the small draft. -/
def sampleFlow : Flow where
  steps := [⟨"g", none, .group ["t"]⟩, ⟨"s", none, .leaf {}⟩, ⟨"t", some "g", .leaf {}⟩]
  dependencies := [⟨"g", "s", true⟩]

theorem declare_sample : Flow.declare sample.declarations = .ok sampleFlow := by
  unfold Flow.declare Flow.assemble
  -- merge sort does not reduce, but what it sorts here is sorted already
  rw [List.mergeSort_of_pairwise (by decide +kernel)]
  decide +kernel

end Draft

end StepFlow
