import StepFlow.Proofs.Course.Setup
import StepFlow.Proofs.Translation

/-! # Which plans a coordinator can be created for

A plan has a flow that was accepted and at least one worker, so within a runtime only one thing can
keep a coordinator from being created for it: a pool holds so many permits and no more, and neither
reading a draft nor checking it looks for that. A draft that asks for more workers is planned like
any other and found out when its run is to begin.

Main statement: `Draft.created_iff`. -/

namespace StepFlow

namespace Draft

variable {d : Draft} {p : Plan}

/-- The checks leave no plan without workers. -/
theorem workers_pos_of_plan (planned : d.plan = .ok p) : 0 < p.workers := by
  obtain ⟨checked, f, -, rfl⟩ := plan_eq_ok_iff.1 planned
  have some_ := checked.workers
  cases workers : d.workers with
  | none => exact Nat.zero_lt_succ _
  | some n =>
    rw [workers, Ne, Option.some.injEq] at some_
    exact Nat.pos_of_ne_zero some_

/-- The number of workers that a draft goes without is one that a pool can hold. -/
theorem workers_le_of_plan (planned : d.plan = .ok p) :
    p.workers ≤ maxPermits ↔ ∀ n, d.workers = some n → n ≤ maxPermits := by
  obtain ⟨-, f, -, rfl⟩ := plan_eq_ok_iff.1 planned
  cases d.workers with
  | none => simp [defaultWorkers, maxPermits]
  | some n => simp

/-- Within a runtime there is a coordinator for some workers that a pool can hold, and otherwise
there is none for the reason that they are too many. -/
theorem create_of_pos {f : Flow} {workers : Nat} (some_ : 0 < workers) (registry : Registry) :
    Coordinator.create f workers true registry =
      if workers ≤ maxPermits then .ok (.initial f workers registry)
      else .error .tooManyWorkers := by
  rw [Coordinator.create, if_neg (Nat.pos_iff_ne_zero.1 some_), if_neg (by decide)]
  by_cases few : workers ≤ maxPermits
  · rw [if_neg (Nat.not_lt.2 few), if_pos few]
  · rw [if_pos (Nat.not_le.1 few), if_neg few]

/-- **When the plan of a draft can be run.** Within a runtime a coordinator is created for the plan
of a draft unless the draft asks for more workers than a pool can hold, and for no other reason is
there none. -/
theorem created_iff (planned : d.plan = .ok p) (registry : Registry) :
    (Coordinator.create p.flow p.workers true registry =
        .ok (.initial p.flow p.workers registry) ↔
      ∀ n, d.workers = some n → n ≤ maxPermits) ∧
    ∀ e, Coordinator.create p.flow p.workers true registry = .error e ↔
      e = .tooManyWorkers ∧ ∃ n, d.workers = some n ∧ maxPermits < n := by
  have many : (∃ n, d.workers = some n ∧ maxPermits < n) ↔ ¬ p.workers ≤ maxPermits := by
    rw [workers_le_of_plan planned]
    push Not
    exact Iff.rfl
  rw [create_of_pos (workers_pos_of_plan planned), ← workers_le_of_plan planned]
  simp only [many]
  split
  · rename_i few
    simp [few]
  · rename_i more
    simp [more, eq_comm]

/-- A coordinator is created for the plan of the small draft. -/
theorem created_sample :
    sample.plan = .ok ⟨defaultScenarioName, none, defaultWorkers, sampleFlow⟩ ∧
      Coordinator.create sampleFlow defaultWorkers = .ok (.initial sampleFlow defaultWorkers) :=
  ⟨plan_sample, (created_iff plan_sample {}).1.2 nofun⟩

/-- The small draft with one worker more than a pool can hold. -/
def crowded : Draft := { sample with workers := some (maxPermits + 1) }

/-- **A draft that was planned need not have a coordinator**: the small one is planned with any
number of workers, and not created for one more than a pool can hold. -/
theorem crowded_not_created : ∃ p, crowded.plan = .ok p ∧
    Coordinator.create p.flow p.workers = .error .tooManyWorkers := by
  have checked : crowded.check = .ok () := by decide +kernel
  have declared : Flow.declare crowded.declarations = .ok sampleFlow := declare_sample
  refine ⟨⟨defaultScenarioName, none, maxPermits + 1, sampleFlow⟩, ?_, rfl⟩
  rw [plan, checked, declared]
  rfl

end Draft

end StepFlow
