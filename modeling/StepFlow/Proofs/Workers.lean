import StepFlow.Proofs.Course.ExecutionBound
import StepFlow.Proofs.Progress

/-! # The pool of workers

A run has a number of workers, and this bounds how many executions are active at once, at every
moment: when executions fail, when the run is stopped and while what was cut short is still to be
dropped. No permit is lost, so a run that is idle does as much as its workers can: as many
executions are active as there are leaves in progress, or else all workers are busy. A leaf that is
skipped neither holds a permit nor waits for one.

Main statement: `Setup.worker_pool`. -/

namespace StepFlow

/-- The active executions as a sum over the executions. -/
theorem Coordinator.activeExecutions_eq (c : Coordinator) :
    c.activeExecutions = c.executions.weigh fun e => if e.isActive then 1 else 0 := by
  rw [Table.weigh_eq_countP, List.countP_eq_length_filter]
  rfl

/-- Whoever is active belongs to the crew, so the workers bound the active executions. -/
theorem Manned.activeExecutions_le {workers : Nat} {c : Coordinator} (man : Manned workers c) :
    c.activeExecutions ≤ workers := by
  have belongs : ∀ e : Execution, (if e.isActive then 1 else 0) ≤ e.crew := by
    intro e
    cases e with
    | cancelled begun => cases begun <;> exact Nat.le_refl _
    | spawned => exact Nat.zero_le 1
    | begun | resumed | ended | dropped => exact Nat.le_refl _
  rw [c.activeExecutions_eq]
  exact Nat.le_trans (Table.weigh_mono belongs c.executions) man.crew

namespace Sound

variable {f : Flow} {workers : Nat} {asked : Bool} {m : Moment} {h : History}
  (s : Sound f workers asked m h)

include s

/-! ## Runs that are idle -/

section Idle

variable (idle : m.isIdle = true)

include idle

/-- When no task is ready the workers that owe an end are those of the leaves in progress. -/
theorem weigh_owes_of_isIdle (con : f.Consistent) : m.run.stages.weigh Stage.owes =
    f.names.countP fun n => f.isLeaf n = true ∧ m.status n = .inProgress := by
  have nowhere := weight_of_isIdle idle
  refine Table.weigh_eq_countP_names s.permits.nodup_stages con.nodup_names (fun n hn => ?_)
    fun n _ => ?_
  · rw [← s.orderly.flow]
    exact s.staged_mem (Table.get?_isSome_of_mem_names hn)
  · show m.run.works n = _
    cases isLeaf : f.isLeaf n with
    | true =>
      -- nothing is on the agenda, so the end of a leaf can only come from its worker
      have sum := s.orderly.leaf n isLeaf
      rw [nowhere, nowhere] at sum
      simpa using sum
    | false =>
      rw [(s.orderly.other n isLeaf).1]
      simp

/-- The permits that are held are those of the active executions. -/
theorem activeExecutions_of_isIdle (man : Manned workers m.run) :
    m.run.activeExecutions = m.run.stages.weigh Stage.holds := by
  rw [m.run.activeExecutions_eq]
  apply Nat.le_antisymm
  · exact Table.weigh_le_weigh man.nodup s.permits.nodup_stages fun n =>
      Nat.le_of_eq (s.holds_eq_active idle n).symm
  · exact Table.weigh_le_weigh s.permits.nodup_stages man.nodup fun n =>
      Nat.le_of_eq (s.holds_eq_active idle n)

/-- Unless a worker waits for a permit, every worker that owes an end holds one. -/
theorem owes_le_holds (empty : m.run.waiters = []) (n : Name) :
    m.run.stages.weightAt Stage.owes n ≤ m.run.stages.weightAt Stage.holds n := by
  have rests := s.workerDue_of_isIdle idle n
  rw [Coordinator.post] at rests
  unfold Table.weightAt
  cases ht : m.run.stages.get? n with
  | none => exact Nat.le_refl 0
  | some t =>
    cases t with
    | dispatched =>
      rw [ht] at rests
      cases rests
    | queued =>
      have waits := (s.permits.waiting n).2 ht
      rw [empty] at waits
      cases waits
    | granted | starting | running | done => exact Nat.le_refl _

/-- **No leaf waits while a worker is free**: an idle run is at work on all leaves in progress, or
as many of them as it has workers. -/
theorem activeExecutions_eq_min (con : f.Consistent) (man : Manned workers m.run) :
    m.run.activeExecutions = min workers
      (f.names.countP fun n => f.isLeaf n = true ∧ m.status n = .inProgress) := by
  have total := s.permits.total
  have held := s.activeExecutions_of_isIdle idle man
  have owed : m.run.stages.weigh Stage.holds ≤ m.run.stages.weigh Stage.owes :=
    Table.weigh_mono (fun t => by cases t <;> simp [Stage.holds, Stage.owes]) m.run.stages
  rw [← s.weigh_owes_of_isIdle idle con]
  by_cases empty : m.run.waiters = []
  · have all : m.run.stages.weigh Stage.owes ≤ m.run.stages.weigh Stage.holds :=
      Table.weigh_le_weigh s.permits.nodup_stages s.permits.nodup_stages
        (s.owes_le_holds idle empty)
    omega
  · -- while a worker waits no permit is free
    have scarce := s.permits.scarce empty
    omega

end Idle

/-! ## Leaves that are skipped -/

/-- A leaf that holds a permit, or waits for one, was committed to run. -/
theorem run_of_holds {n : Name}
    (uses : m.run.stages.weightAt Stage.holds n ≠ 0 ∨ n ∈ m.run.waiters) :
    h.verdict n = some .run := by
  rcases uses with holds | waits
  · unfold Table.weightAt at holds
    cases ht : m.run.stages.get? n with
    | none =>
      rw [ht] at holds
      exact absurd rfl holds
    | some t =>
      rw [ht] at holds
      cases t with
      | granted | starting | running => exact s.posted.verdict n _ _ ht rfl
      | dispatched | queued | done => exact absurd rfl holds
  · exact s.posted.verdict n _ _ ((s.permits.waiting n).1 waits) rfl

end Sound

/-- **The pool of workers.** At every moment of every run there are at most as many active
executions as workers, and every permit is free or held by a worker. When the run is idle the
permits that are held are those of the active executions, and these are as many as there are leaves
in progress, up to the number of workers. A leaf that is skipped, by itself or with a group that it
lies under, has at no moment held a permit or waited for one. -/
theorem Setup.worker_pool (s : Setup) (xs : List Choice) :
    (s.after xs).run.activeExecutions ≤ s.workers ∧
      (s.after xs).run.permits + (s.after xs).run.stages.weigh Stage.holds = s.workers ∧
      ((s.after xs).isIdle = true →
        (s.after xs).run.activeExecutions = min s.workers (s.flow.names.countP fun n =>
          s.flow.isLeaf n = true ∧ (s.after xs).status n = .inProgress) ∧
        (s.after xs).run.permits + (s.after xs).run.activeExecutions = s.workers) ∧
      ∀ n, (History.Committed (s.past xs) n .skip ∨
          ∃ g, s.flow.Under n g ∧ History.Committed (s.past xs) g .skip) →
        ∀ later earlier, xs = later ++ earlier →
          (s.after earlier).run.stages.weightAt Stage.holds n = 0 ∧
            n ∉ (s.after earlier).run.waiters := by
  have sound := s.sound xs
  have man := s.manned xs
  have total := sound.permits.total
  refine ⟨man.activeExecutions_le, total, fun idle => ⟨?_, ?_⟩, ?_⟩
  · exact sound.activeExecutions_eq_min idle s.wellFormed man
  · rw [sound.activeExecutions_of_isIdle idle man]
    exact total
  · intro n skipped later earlier split
    by_contra used
    rw [not_and_or, not_not] at used
    -- it was committed to run before it used the pool, and so it never was skipped
    obtain ⟨k, hk, commit⟩ :=
      (s.sound earlier).recorded.verdict_eq_run_iff.1 ((s.sound earlier).run_of_holds used)
    have run : History.Committed (s.past xs) n .run := by
      obtain ⟨x, since, before, rfl, rfl⟩ := Moment.mem_past_iff.1 hk
      refine ⟨_, Moment.mem_past_iff.2 ⟨x, later ++ since, before, ?_, rfl⟩, commit⟩
      rw [split, List.append_assoc]
    have ran := sound.recorded.verdict_eq_run_iff.2 run
    rcases sound.recorded.skipped_iff_committed.2 skipped with own | above
    · rw [ran] at own
      cases own
    · rw [ran] at above
      cases above

/-- A run of the small setup in which the executor of the first leaf has begun and waits. -/
def Setup.sampleWait : List Choice :=
  [.turn (.worker "a") {}, .turn (.executor "a") { outcome := none }] ++
    Choice.turns 4 (.worker "a") (.exit 0) ++ [.turn (.worker "a") {}, .request .start]

/-- In the small setup one execution is active while the first leaf waits. When that leaf fails the
group is skipped, and the leaf in it never holds a permit. -/
theorem Setup.worker_pool_sample :
    ((sample.after sampleWait).isIdle = true ∧
        (sample.after sampleWait).run.activeExecutions = min sample.workers
          (sample.flow.names.countP fun n =>
            sample.flow.isLeaf n = true ∧ (sample.after sampleWait).status n = .inProgress)) ∧
      History.Committed (sample.past (sampleRun (.exit 3) (.exit 0))) "g" .skip ∧
        (sample.after (sampleRun (.exit 3) (.exit 0))).run.stages.weightAt Stage.holds "b" = 0 := by
  have idle : (sample.after sampleWait).isIdle = true := by decide +kernel
  have skip : History.Committed (sample.past (sampleRun (.exit 3) (.exit 0))) "g" .skip := by
    obtain ⟨k, mem, commit⟩ : ∃ k ∈ sample.past (sampleRun (.exit 3) (.exit 0)),
        k.commit? = some ("g", .skip) := by decide +kernel
    exact ⟨k, mem, commit⟩
  have under : sample.flow.Under "b" "g" := .of_groupOf? rfl
  have spared := (sample.worker_pool (sampleRun (.exit 3) (.exit 0))).2.2.2 "b"
    (.inr ⟨"g", under, skip⟩) [] _ rfl
  exact ⟨⟨idle, ((sample.worker_pool sampleWait).2.2.1 idle).1⟩, skip, spared.1⟩

end StepFlow
