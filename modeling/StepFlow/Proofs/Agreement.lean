import StepFlow.Proofs.Scenario.Checks

/-! # The checks of a draft and those of its flow agree

A draft is checked before its flow is declared, and the declarations are checked once more when they
are put together. The two never contradict each other. What can be declared passes the checks on
names and references, so nothing but an empty draft and a number of workers of zero is refused that
would make a flow. What passes the checks can be refused by the flow for four reasons only: a blank
name, a group in itself, a step that waits for itself, and a cycle.

Main statement: `Draft.layers_agree`. -/

namespace StepFlow

namespace Draft

open Declaration

variable {d : Draft}

/-! ## What can be declared passes the checks -/

section Declared

variable (fit : Fit d.declarations)

include fit

/-- Names that can be introduced together are apart. -/
theorem apart_of_fit : d.Apart := by
  have nodup := fit.names.nodup
  rw [names_introduced_declarations] at nodup
  intro n step group
  exact (List.nodup_append.1 nodup).2.2 n group n step rfl

/-- References that can be declared are without fault: what is required is introduced and so has a
name, and what is joined is introduced as a group. -/
theorem references_of_fit : ∀ r ∈ d.references, ∀ e, ¬ d.Fault r.1 r.2 e := by
  rintro ⟨n, r⟩ mem e fault
  cases fault with
  | @empty entry empty =>
    have requires := mem_references_requirement.1 mem
    have known := fit.waits.dst _ requires.mem_waits
    obtain ⟨e, he, name⟩ := List.mem_map.1 known
    have spelled := fit.names.spelled e he
    rw [name] at spelled
    change Text.isAllBlank (Requirement.parse entry).name = false at spelled
    rw [empty] at spelled
    cases spelled
  | @unknown entry _ unknown =>
    have requires := mem_references_requirement.1 mem
    have known := fit.waits.dst _ requires.mem_waits
    exact unknown (mem_names_introduced.1 known)
  | @group g unknown =>
    have joins := mem_references_group.1 mem
    obtain ⟨children, introduced⟩ := fit.members.group _ (mem_members_declarations.2 joins)
    exact unknown (mem_groups_of_introduced introduced)

end Declared

/-! ## What passes the checks and cannot be declared -/

/-- The reasons why the flow of a draft may be refused although the draft was checked. -/
inductive Slips : FlowError → Prop where
  | blankName : Slips .blankName
  | selfMember (g : Name) : Slips (.selfMember g)
  | selfWait (n : Name) : Slips (.selfWait n)
  | cycle : Slips .cycle

section Checked

variable (checked : d.Checked) {e : FlowError}

include checked

theorem nodup_of_checked : ((introduced d.declarations).map (·.1)).Nodup := by
  rw [names_introduced_declarations, List.nodup_append]
  refine ⟨d.groups.nodup_keys, d.steps.nodup_keys, ?_⟩
  rintro n group _ step rfl
  exact checked.apart n step group

/-- A name of a checked draft can only be blank. -/
theorem slips_of_names (h : Declaration.checkNames [] (introduced d.declarations) = .error e) :
    Slips e := by
  obtain ⟨good, x, rest, split, -, fault⟩ := ((checkNames_spec _).2 e).1 h
  cases fault with
  | blank => exact .blankName
  | again _ before =>
    have nodup := nodup_of_checked checked
    rw [split, List.map_append, List.map_cons, List.nodup_append] at nodup
    exact absurd rfl (nodup.2.2 _ before _ List.mem_cons_self)

/-- A group of a checked draft can only be in itself. -/
theorem slips_of_members
    (h : checkMembers (introduced d.declarations) [] (members d.declarations) = .error e) :
    Slips e := by
  obtain ⟨good, x, rest, split, -, fault⟩ :=
    ((checkMembers_spec (nodup_of_checked checked) _).2 e).1 h
  have joins : ∀ {c g}, (c, g) ∈ good ++ x :: rest → d.Joins c g := by
    intro c g mem
    exact mem_members_declarations.1 (split ▸ mem)
  have here : d.Joins x.1 x.2 := joins (List.mem_append_right _ List.mem_cons_self)
  cases fault with
  | child unknown => exact (unknown (mem_names_introduced.2 here.declared)).elim
  | unknown _ unknown => exact (unknown (mem_names_introduced.2 (.inr (checked.group here)))).elim
  | leaf _ action leaf =>
    exact (checked.apart _ (mem_steps_of_introduced leaf) (checked.group here)).elim
  | self => exact .selfMember _
  | twice _ _ _ _ other before different =>
    have old : d.Joins x.1 other := joins (List.mem_append_left _ before)
    exact (different (Joins.unique checked.apart old here)).elim

/-- A step of a checked draft can only wait for itself. -/
theorem slips_of_waits
    (h : checkWaits (introduced d.declarations) (waits d.declarations) = .error e) :
    Slips e := by
  obtain ⟨good, x, rest, split, -, fault⟩ := ((checkWaits_spec _ _).2 e).1 h
  have mem : x ∈ waits d.declarations := by
    rw [split]
    exact List.mem_append_right _ List.mem_cons_self
  obtain ⟨entry, requires, parsed⟩ := mem_waits_declarations.1 mem
  have declared := (checked.requirement requires).2
  rw [parsed] at declared
  cases fault with
  | src unknown => exact (unknown (mem_names_introduced.2 requires.declared)).elim
  | dst _ unknown => exact (unknown (mem_names_introduced.2 declared)).elim
  | self => exact .selfWait _

/-- **A checked draft is refused by the flow for four reasons only.** -/
theorem slips_of_checked (h : Flow.declare d.declarations = .error e) : Slips e := by
  rcases Flow.declare_eq_error_iff.1 h with parts | ⟨-, -, rfl⟩
  · rcases Flow.checkParts_eq_error_iff.1 parts with names | ⟨-, members | ⟨-, waits⟩⟩
    · exact slips_of_names checked names
    · exact slips_of_members checked members
    · exact slips_of_waits checked waits
  · exact .cycle

end Checked

/-! ## The two layers -/

/-- A draft that was checked has a plan as soon as its declarations make a flow. -/
theorem exists_plan_iff :
    (∃ p, d.plan = .ok p) ↔ d.Checked ∧ ∃ f, Flow.declare d.declarations = .ok f := by
  simp only [plan, bind_eq_ok_iff, check_eq_ok_iff]
  cases Flow.declare d.declarations with
  | error e => exact ⟨nofun, nofun⟩
  | ok f => simp [Except.mapError, bind, Except.bind, pure, Except.pure]

/-- **The two layers of checks agree.** A draft has a plan exactly when it has a step or a group,
its number of workers is not zero, and its declarations make a flow: whatever they make a flow of
passes the checks on names and on references. And the declarations of a draft that was checked make
a flow, or there is a blank name, a group in itself, a step that waits for itself or a cycle, and
nothing else. -/
theorem layers_agree (d : Draft) :
    ((∃ p, d.plan = .ok p) ↔ (d.steps.entries ≠ [] ∨ d.groups.entries ≠ []) ∧
      d.workers ≠ some 0 ∧ ∃ f, Flow.declare d.declarations = .ok f) ∧
    (∀ f, Flow.declare d.declarations = .ok f →
      d.checkNames = .ok () ∧ d.checkReferences = .ok ()) ∧
    (d.check = .ok () → ∀ e, Flow.declare d.declarations = .error e →
      e = .blankName ∨ (∃ g, e = .selfMember g) ∨ (∃ n, e = .selfWait n) ∨ e = .cycle) := by
  refine ⟨?_, fun f declared => ?_, fun passed e refused => ?_⟩
  · rw [exists_plan_iff]
    constructor
    · rintro ⟨checked, made⟩
      exact ⟨checked.some_, checked.workers, made⟩
    · rintro ⟨some_, workers, f, declared⟩
      have fit := (Flow.declare_eq_ok_iff.1 declared).1
      exact ⟨⟨some_, workers, apart_of_fit fit, references_of_fit fit⟩, f, declared⟩
  · have fit := (Flow.declare_eq_ok_iff.1 declared).1
    exact ⟨checkNames_eq_ok_iff.2 (apart_of_fit fit),
      checkReferences_eq_ok_iff.2 (references_of_fit fit)⟩
  · cases slips_of_checked (check_eq_ok_iff.1 passed) refused with
    | blankName => exact .inl rfl
    | selfMember g => exact .inr (.inl ⟨g, rfl⟩)
    | selfWait n => exact .inr (.inr (.inl ⟨n, rfl⟩))
    | cycle => exact .inr (.inr (.inr rfl))

/-- The small draft has a plan, for its declarations make a flow. -/
theorem layers_agree_sample : ∃ p, sample.plan = .ok p :=
  (layers_agree sample).1.2 ⟨.inl (by decide), by decide, _, declare_sample⟩

end Draft

end StepFlow
