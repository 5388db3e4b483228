import StepFlow.Proofs.Flow.WellFormed
import StepFlow.Status

/-! # The rules of a flow

What becomes of the steps of a flow is settled by the flow and by what the executors of its leaves
have returned, whoever runs it and in whatever order. The **rules** give the standing of a step from
the standings of other steps: whether it runs from its group and from the targets of its
dependencies, and how it ends from its children if it is a group and from its executor if it is a
leaf.

The rules may go around in circles as far as steps are concerned, but not as far as phases are: each
phase is settled by phases of lower rank. So the rules have exactly one solution, and applying them
as often as there are phases finds it.

Main statements: `WellFormed.standing_eq_rule`, that the standings satisfy the rules, and
`WellFormed.eq_standing`, that nothing else does. -/

namespace StepFlow

/-- The **standing** of a step. -/
inductive Standing where
  /-- It is not decided whether the step runs. -/
  | waiting
  /-- The step is skipped, by itself or with a group that it lies under. -/
  | skipped
  /-- The step runs. -/
  | running
  /-- The step has run and has succeeded. -/
  | succeeded
  /-- The step has run and has failed. -/
  | failed
deriving Repr, DecidableEq

namespace Standing

/-- The status of a step with a standing. -/
def status : Standing → Status
  | .waiting => .waiting
  | .running => .inProgress
  | .succeeded => .succeeded
  | .skipped | .failed => .failed

/-- The standing that a step had when it started. -/
def atStart : Standing → Standing
  | .waiting => .waiting
  | .skipped => .skipped
  | .running | .succeeded | .failed => .running

end Standing

/-! ## The rules -/

section Rules

variable (f : Flow) (returned : Name → Option Int) (σ : Name → Standing) (s : Step)

/-- What is decided of a step. It is skipped if its group is. It is considered once its group runs,
if it has one, and decided once the targets of its dependencies have ended: then it is skipped if a
hard one has failed, and runs otherwise. -/
def Flow.decision : Standing :=
  if ∃ g ∈ s.group, (σ g).atStart = .skipped then .skipped
  else if (∀ g ∈ s.group, (σ g).atStart = .running) ∧
      ∀ d ∈ f.edgesFrom s.name, (σ d.dst).status.isTerminal = true then
    if ∃ d ∈ f.edgesFrom s.name, d.soft = false ∧ (σ d.dst).status = .failed then .skipped
    else .running
  else .waiting

/-- How a step stands that runs. A leaf runs until its executor has returned, and has succeeded if
the exit code is zero. A group runs until its children have ended, and has succeeded if they all
have. -/
def Step.course : Standing :=
  match s.kind with
  | .leaf _ =>
    match returned s.name with
    | none => .running
    | some code => if code = 0 then .succeeded else .failed
  | .group children =>
    if ∀ c ∈ children, (σ c).status.isTerminal = true then
      if ∀ c ∈ children, (σ c).status = .succeeded then .succeeded else .failed
    else .running

/-- **The rules**: how a step stands, given how the other steps stand. -/
def Flow.rule : Standing :=
  match f.decision σ s with
  | .running => s.course returned σ
  | decided => decided

/-- The standing of a step after the rules were applied a number of times. -/
def Flow.standingAfter : Nat → Name → Standing
  | 0, _ => .waiting
  | k + 1, n => ((f.step? n).map (f.rule returned (standingAfter k))).getD .waiting

/-- The **standing** of a step by the rules: they are applied once for every phase. -/
def Flow.standing (n : Name) : Standing := f.standingAfter returned (2 * f.steps.length) n

end Rules

/-! ## What the rules read -/

section Reading

variable {f : Flow} {returned : Name → Option Int} {σ τ : Name → Standing} {s : Step} {n : Name}

/-- A step that is decided to run runs or has run. -/
theorem Step.atStart_course : (s.course returned σ).atStart = .running := by
  unfold course
  split
  · split
    · rfl
    · split <;> rfl
  · split
    · split <;> rfl
    · rfl

theorem Flow.atStart_decision : (f.decision σ s).atStart = f.decision σ s := by
  unfold decision
  split
  · rfl
  · split
    · split <;> rfl
    · rfl

/-- The decision about a step is the standing that it had when it started. -/
theorem Flow.atStart_rule : (f.rule returned σ s).atStart = f.decision σ s := by
  unfold rule
  split
  · rename_i run
    rw [run]
    exact Step.atStart_course
  · exact Flow.atStart_decision

/-- A decision reads how the group stood when it started, and how the targets of the dependencies
stand. -/
theorem Flow.decision_congr (group : ∀ g, s.group = some g → (σ g).atStart = (τ g).atStart)
    (edges : ∀ d ∈ f.edgesFrom s.name, σ d.dst = τ d.dst) : f.decision σ s = f.decision τ s := by
  have skipped : (∃ g ∈ s.group, (σ g).atStart = .skipped) ↔
      ∃ g ∈ s.group, (τ g).atStart = .skipped :=
    exists_congr fun g => and_congr_right fun hg => by rw [group g hg]
  have released : (∀ g ∈ s.group, (σ g).atStart = .running) ↔
      ∀ g ∈ s.group, (τ g).atStart = .running :=
    forall₂_congr fun g hg => by rw [group g hg]
  have ended : (∀ d ∈ f.edgesFrom s.name, (σ d.dst).status.isTerminal = true) ↔
      ∀ d ∈ f.edgesFrom s.name, (τ d.dst).status.isTerminal = true :=
    forall₂_congr fun d hd => by rw [edges d hd]
  have broken : (∃ d ∈ f.edgesFrom s.name, d.soft = false ∧ (σ d.dst).status = .failed) ↔
      ∃ d ∈ f.edgesFrom s.name, d.soft = false ∧ (τ d.dst).status = .failed :=
    exists_congr fun d => and_congr_right fun hd => by rw [edges d hd]
  unfold decision
  simp only [skipped, released, ended, broken]

/-- How a step stands that runs reads how its children stand. -/
theorem Step.course_congr (children : ∀ c ∈ s.children, σ c = τ c) :
    s.course returned σ = s.course returned τ := by
  unfold course
  cases kind : s.kind with
  | leaf action => rfl
  | group members =>
    have same : ∀ c ∈ members, σ c = τ c := by
      intro c hc
      exact children c (by rw [Step.children, kind]; exact hc)
    have ended : (∀ c ∈ members, (σ c).status.isTerminal = true) ↔
        ∀ c ∈ members, (τ c).status.isTerminal = true :=
      forall₂_congr fun c hc => by rw [same c hc]
    have succeeded : (∀ c ∈ members, (σ c).status = .succeeded) ↔
        ∀ c ∈ members, (τ c).status = .succeeded :=
      forall₂_congr fun c hc => by rw [same c hc]
    simp only [ended, succeeded]

end Reading

/-! ## A ranking by counting -/

section Counting

variable {f : Flow} (wf : f.WellFormed)

include wf

/-- **The phases can be ranked below their number**: a phase is ranked by how many phases come
before it in some ranking. -/
theorem Flow.WellFormed.exists_rank_lt : ∃ rank, f.precedence.Ranking rank ∧
    ∀ v ∈ f.precedence.phases, rank v < 2 * f.steps.length := by
  obtain ⟨old, ranking⟩ := wf.ranked
  let earlier := fun v => f.precedence.phases.toFinset.filter fun u => old u < old v
  refine ⟨fun v => (earlier v).card, fun v hv u hu => ?_, fun v hv => ?_⟩
  · have below := ranking v hv u hu
    apply Finset.card_lt_card
    rw [Finset.ssubset_iff_of_subset]
    · refine ⟨u, ?_, by simp [earlier]⟩
      rw [Finset.mem_filter, List.mem_toFinset]
      exact ⟨wf.mem_phases_of_before hv hu, below⟩
    · intro t ht
      rw [Finset.mem_filter] at ht ⊢
      exact ⟨ht.1, ht.2.trans below⟩
  · calc (earlier v).card
        < f.precedence.phases.toFinset.card := by
          apply Finset.card_lt_card
          rw [Finset.ssubset_iff_of_subset (Finset.filter_subset ..)]
          exact ⟨v, List.mem_toFinset.2 hv, by simp⟩
      _ ≤ f.precedence.phases.length := f.precedence.phases.toFinset_card_le
      _ = 2 * f.steps.length := by
          simp [Precedence.phases, Flow.precedence, Flow.names, List.length_flatMap,
            Function.comp_def, Nat.mul_comm]

end Counting

/-! ## The rules have one solution -/

/-- Standings **agree below** a rank when they agree on the phases below it: on how a step stood
when it started if it starts there, and on how it stands if it finishes there. -/
def AgreeBelow (f : Flow) (rank : Phase → Nat) (r : Nat) (σ τ : Name → Standing) : Prop :=
  ∀ n, f.contains n = true →
    (rank (.start n) < r → (σ n).atStart = (τ n).atStart) ∧ (rank (.finish n) < r → σ n = τ n)

section Solution

variable {f : Flow} (wf : f.WellFormed) {rank : Phase → Nat}
  (ranking : f.precedence.Ranking rank) {returned : Name → Option Int} {σ τ : Name → Standing}

include wf ranking

/-- The rules settle the phases of a rank from those below it. -/
theorem AgreeBelow.rule {r : Nat} (agree : AgreeBelow f rank r σ τ) {s : Step}
    (found : f.step? s.name = some s) :
    (rank (.start s.name) < r + 1 →
        (f.rule returned σ s).atStart = (f.rule returned τ s).atStart) ∧
      (rank (.finish s.name) < r + 1 → f.rule returned σ s = f.rule returned τ s) := by
  have known := Flow.contains_of_step? found
  -- what a decision reads, the start of the group and the ends of the targets, is ranked lower
  have decision : rank (.start s.name) < r + 1 → f.decision σ s = f.decision τ s := by
    intro lower
    refine Flow.decision_congr (fun g hg => ?_) fun d hd => ?_
    · have direct : f.groupOf? s.name = some g := by rw [Flow.groupOf?_of_step? found, hg]
      have below := wf.rank_start_group_lt ranking direct
      obtain ⟨t, ht, -⟩ := wf.exists_group_of_groupOf? direct
      exact (agree g (Flow.contains_of_step? ht)).1 (by omega)
    · obtain ⟨mem, src⟩ := Flow.mem_edgesFrom.1 hd
      have below := wf.rank_finish_dst_lt ranking mem
      rw [src] at below
      exact (agree d.dst (wf.contains_dst mem)).2 (by omega)
  refine ⟨fun lower => ?_, fun lower => ?_⟩
  · rw [Flow.atStart_rule, Flow.atStart_rule, decision lower]
  · have first := wf.rank_start_lt_finish ranking known
    -- and so are the ends of the children, which the course reads
    have course : s.course returned σ = s.course returned τ := by
      refine Step.course_congr fun c hc => ?_
      have direct : f.groupOf? c = some s.name := by
        rw [← wf.mem_childrenOf, Flow.childrenOf_of_step? found]
        exact hc
      have below := wf.rank_finish_lt_group ranking direct
      exact (agree c (Flow.contains_of_groupOf? direct)).2 (by omega)
    rw [Flow.rule, Flow.rule, decision (by omega), course]

omit wf ranking in
theorem Flow.standingAfter_succ {k : Nat} {s : Step} (found : f.step? s.name = some s) :
    f.standingAfter returned (k + 1) s.name =
      f.rule returned (f.standingAfter returned k) s := by
  rw [standingAfter, found]
  rfl

/-- What satisfies the rules agrees with the standings after enough applications of them. -/
theorem Flow.standingAfter_agree
    (solves : ∀ s, f.step? s.name = some s → σ s.name = f.rule returned σ s) (k : Nat) :
    AgreeBelow f rank k σ (f.standingAfter returned k) := by
  -- one application settles the phases of one more rank
  induction k with
  | zero => exact fun n _ => ⟨fun h => absurd h (Nat.not_lt_zero _),
      fun h => absurd h (Nat.not_lt_zero _)⟩
  | succ k ih =>
    intro n known
    obtain ⟨s, found⟩ := Flow.contains_iff_exists.1 known
    have name := Flow.step?_name found
    subst name
    rw [solves s found, standingAfter_succ found]
    exact ih.rule wf ranking found

/-- One application more changes nothing below the number of applications. -/
theorem Flow.standingAfter_stays (k : Nat) :
    AgreeBelow f rank k (f.standingAfter returned k) (f.standingAfter returned (k + 1)) := by
  induction k with
  | zero => exact fun n _ => ⟨fun h => absurd h (Nat.not_lt_zero _),
      fun h => absurd h (Nat.not_lt_zero _)⟩
  | succ k ih =>
    intro n known
    obtain ⟨s, found⟩ := Flow.contains_iff_exists.1 known
    have name := Flow.step?_name found
    subst name
    rw [standingAfter_succ found, standingAfter_succ found]
    exact ih.rule wf ranking found

end Solution

namespace Flow.WellFormed

variable {f : Flow} (wf : f.WellFormed) {returned : Name → Option Int}

include wf

/-- **The standings satisfy the rules.** -/
theorem standing_eq_rule {s : Step} (found : f.step? s.name = some s) :
    f.standing returned s.name = f.rule returned (f.standing returned) s := by
  -- no phase is ranked as high as the number of applications, so one more changes nothing
  obtain ⟨rank, ranking, bound⟩ := wf.exists_rank_lt
  have known := Flow.contains_of_step? found
  have last := bound (.finish s.name) (Flow.mem_phases.2 ⟨s.name, known, .inr rfl⟩)
  have stays := (@Flow.standingAfter_stays f wf rank ranking returned (2 * f.steps.length)
    s.name known).2 last
  rw [Flow.standingAfter_succ found] at stays
  exact stays

/-- **Nothing else satisfies the rules.** -/
theorem eq_standing {σ : Name → Standing}
    (solves : ∀ s, f.step? s.name = some s → σ s.name = f.rule returned σ s) {n : Name}
    (known : f.contains n = true) : σ n = f.standing returned n := by
  obtain ⟨rank, ranking, bound⟩ := wf.exists_rank_lt
  have last := bound (.finish n) (Flow.mem_phases.2 ⟨n, known, .inr rfl⟩)
  exact (Flow.standingAfter_agree wf ranking solves (2 * f.steps.length) n known).2 last

end Flow.WellFormed

end StepFlow
