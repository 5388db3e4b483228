import StepFlow.Coordinator.Turn

/-! # What the decision rule finds

The decision rule looks at a step, its group and the targets of its dependencies. It decides exactly
when the step waits, its group is in progress and no dependency is open, and then a broken
dependency makes the difference, or a stop. -/

namespace StepFlow

/-- The rule decides exactly for a step that waits, is released and has no open dependency. -/
theorem Flow.directive_ne_noop_iff {f : Flow} {t : StatusTable} {s : Step} :
    f.directive t s ≠ .noop ↔ t.status s.name = .waiting ∧
      (∀ g, s.group = some g → t.status g = .inProgress) ∧
      ∀ d ∈ f.edgesFrom s.name, (t.status d.dst).isTerminal = true := by
  have released : t.isReleased s = true ↔ ∀ g, s.group = some g → t.status g = .inProgress := by
    unfold StatusTable.isReleased
    cases s.group <;> simp
  have closed : (f.edgesFrom s.name).any t.isOpen = false ↔
      ∀ d ∈ f.edgesFrom s.name, (t.status d.dst).isTerminal = true := by
    rw [List.any_eq_false]
    simp only [StatusTable.isOpen, Bool.not_eq_true', Bool.not_eq_false]
  rw [← released, ← closed]
  unfold Flow.directive
  -- the rule makes its checks one after the other, so each combination of answers is one branch
  by_cases waits : t.status s.name = .waiting
  · cases hr : t.isReleased s <;> cases ho : (f.edgesFrom s.name).any t.isOpen <;>
      cases hb : (f.edgesFrom s.name).any t.isBroken <;> simp [waits]
  · simp [waits]

/-- What the rule decides depends on a broken dependency. -/
theorem Flow.directive_of_ne_noop {f : Flow} {t : StatusTable} {s : Step}
    (h : f.directive t s ≠ .noop) : f.directive t s =
      if ∃ d ∈ f.edgesFrom s.name, d.soft = false ∧ t.status d.dst = .failed then .skip
      else .run := by
  have broken : (f.edgesFrom s.name).any t.isBroken = true ↔
      ∃ d ∈ f.edgesFrom s.name, d.soft = false ∧ t.status d.dst = .failed := by
    simp [StatusTable.isBroken]
  unfold Flow.directive at h ⊢
  split at h
  · exact absurd rfl h
  · rename_i waits
    split at h
    · exact absurd rfl h
    · rename_i released
      split at h
      · exact absurd rfl h
      · rename_i closed
        rw [if_neg waits, if_neg released, if_neg closed]
        simp only [broken]

namespace Coordinator

variable {c : Coordinator} {s : Step}

/-- A stop decides nothing that was not decided anyway. -/
theorem directive_ne_noop_iff :
    c.directive s ≠ .noop ↔ c.flow.directive c.statuses s ≠ .noop := by
  unfold directive
  cases hd : c.flow.directive c.statuses s with
  | noop => simp
  | skip => simp
  | run => cases c.stopped <;> simp

/-- A step that the rule decides on has its group in progress. -/
theorem released_of_directive (h : c.directive s ≠ .noop) {g : Name} (hg : s.group = some g) :
    c.status g = .inProgress :=
  (Flow.directive_ne_noop_iff.1 (directive_ne_noop_iff.1 h)).2.1 g hg

/-- What a step waited for has ended when the rule decides on it. -/
theorem ended_of_directive (h : c.directive s ≠ .noop) {d : Dependency}
    (hd : d ∈ c.flow.edgesFrom s.name) : (c.status d.dst).isTerminal = true :=
  (Flow.directive_ne_noop_iff.1 (directive_ne_noop_iff.1 h)).2.2 d hd

/-- A step runs when the run is not stopped and the targets of its hard dependencies have
succeeded. -/
theorem of_directive_eq_run (h : c.directive s = .run) : c.stopped = false ∧
    ∀ d ∈ c.flow.edgesFrom s.name, d.soft = false → c.status d.dst = .succeeded := by
  have decided : c.directive s ≠ .noop := by rw [h]; decide
  have rule := Flow.directive_of_ne_noop (directive_ne_noop_iff.1 decided)
  unfold directive at h
  rw [rule] at h
  split at h
  · rename_i same
    split at same
    · cases same
    · -- what has ended and has not failed has succeeded
      rename_i sound
      refine ⟨by cases hs : c.stopped <;> simp [hs] at h ⊢, fun d hd hard => ?_⟩
      have settled := ended_of_directive decided hd
      cases hs : c.status d.dst with
      | succeeded => rfl
      | failed => exact absurd ⟨d, hd, hard, hs⟩ sound
      | waiting => rw [hs] at settled; cases settled
      | inProgress => rw [hs] at settled; cases settled
  · rename_i different
    exact absurd h different

/-- A step is skipped when the run is stopped or a hard dependency is broken. -/
theorem of_directive_eq_skip (h : c.directive s = .skip) : c.stopped = true ∨
    ∃ d ∈ c.flow.edgesFrom s.name, d.soft = false ∧ c.status d.dst = .failed := by
  have decided : c.directive s ≠ .noop := by rw [h]; decide
  have rule := Flow.directive_of_ne_noop (directive_ne_noop_iff.1 decided)
  by_cases broken :
      ∃ d ∈ c.flow.edgesFrom s.name, d.soft = false ∧ c.statuses.status d.dst = .failed
  · exact .inr broken
  · unfold directive at h
    rw [rule, if_neg broken] at h
    cases hs : c.stopped with
    | true => exact .inl rfl
    | false => simp [hs] at h

end Coordinator

end StepFlow
