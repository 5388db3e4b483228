import StepFlow.Proofs.Course.Account
import StepFlow.Proofs.Progress

/-! # Bookkeeping

The counts of a run are exact at every moment, also in the middle of a cascade: the failures are the
failed entries of the table of statuses, what is pending of a group are the children that it has not
counted, and what remains are the steps that the run has not counted. What has not ended was not
counted, so the counts are never too low, and no count that is lowered was zero.

Waiting for the end is answered when nothing remains. So the answer comes only when every step has
ended, and in a run that is idle it is missing only while some step has not.

Main statement: `Setup.bookkeeping`. -/

namespace StepFlow

/-- The **books** of a run are right at a moment when its three counts are exact and none of them is
about to be lowered below zero. -/
structure Books (f : Flow) (m : Moment) (h : History) : Prop where
  /-- The failures are the failed entries. -/
  failures : m.run.statuses.failures = m.run.statuses.snapshot.countP fun e => e.2 = .failed
  /-- What is pending of a group are the children that it has not counted, and among these are all
  that have not ended. -/
  pending : ∀ g, f.isGroup g = true → ∃ p, m.run.progress.get? g = some p ∧
    p.pending = ((f.childrenOf g).countP fun n => ¬ h.CountedBy .group n) ∧
    m.unfinished (f.childrenOf g) ≤ p.pending
  /-- What remains are the steps that the run has not counted, and among these are all that have not
  ended. -/
  remaining : m.run.remaining = (f.names.countP fun n => ¬ h.CountedBy .run n) ∧
    m.unfinished f.names ≤ m.run.remaining
  /-- An entry that could be taken from the failures was counted. -/
  failed_entry : ∀ n, m.run.statuses.previous? n = some .failed → 0 < m.run.statuses.failures
  /-- A group that is about to count a child has one pending. -/
  counting : ∀ g code rest, m.agenda = .childFinished g code :: rest →
    ∃ p, m.run.progress.get? g = some p ∧ 0 < p.pending
  /-- When the run is about to count a step, one remains. -/
  countingDown : ∀ rest, m.agenda = .countDown :: rest → 0 < m.run.remaining

namespace Coordinator

variable {c : Coordinator}

/-- There is no answer while something remains. -/
theorem answer?_eq_none : c.answer? = none ↔ 0 < c.remaining := by
  unfold answer? isFinished
  by_cases none : c.remaining = 0 <;> simp [none]
  omega

/-- The answer tells whether there are failures. -/
theorem answer?_eq_some {code : Int} : c.answer? = some code ↔
    c.remaining = 0 ∧ code = if 0 < c.statuses.failures then 1 else 0 := by
  unfold answer? isFinished StatusTable.hasFailures
  by_cases none : c.remaining = 0 <;> simp [none, eq_comm]

end Coordinator

namespace Moment

/-- Nothing is unfinished when every step has ended. -/
theorem unfinished_eq_zero {m : Moment} {names : List Name} :
    m.unfinished names = 0 ↔ ∀ n ∈ names, (m.status n).isTerminal = true := by
  simp [unfinished]

/-- The answer is zero if no step has failed, and one otherwise. -/
theorem code_of_answer? {f : Flow} {m : Moment} (con : f.Consistent)
    (exact : m.run.statuses.Exact f) {code : Int} (answer : m.run.answer? = some code) :
    code = if ∃ n ∈ f.names, m.status n = .failed then 1 else 0 := by
  rw [(Coordinator.answer?_eq_some.1 answer).2, exact.failures_eq con.nodup_names]
  simp only [List.countP_pos_iff, decide_eq_true_eq]
  rfl

end Moment

namespace Sound

variable {f : Flow} {workers : Nat} {asked : Bool} {m : Moment} {h : History}
  (s : Sound f workers asked m h)

include s

/-- **The books of a run are right.** -/
theorem books (con : f.Consistent) (exact : m.run.statuses.Exact f) (groups : Ledger .group f m h)
    (run : Ledger .run f m h) : Books f m h where
  failures := exact.failures
  pending g isGroup := by
    obtain ⟨p, hp⟩ := Option.isSome_iff_exists.1 ((s.counted.progress g).trans isGroup)
    refine ⟨p, hp, groups.pending_eq con s.recorded s.counted hp, ?_⟩
    rw [s.counted.pending g p hp]
    exact Nat.le_add_right _ _
  remaining := by
    refine ⟨run.remaining_eq con s.orderly s.recorded s.counted, ?_⟩
    rw [s.counted.remaining]
    exact Nat.le_add_right _ _
  failed_entry _ found := exact.failures_pos found
  counting g code rest agenda := by
    have here : 0 < m.weight (Call.counts g) :=
      total_pos_of_mem (by rw [agenda]; exact List.mem_cons_self) (by simp [Call.counts])
    have isGroup := (s.orderly.counting g here).1
    obtain ⟨p, hp⟩ := Option.isSome_iff_exists.1 ((s.counted.progress g).trans isGroup)
    have pending := s.counted.pending g p hp
    exact ⟨p, hp, by omega⟩
  countingDown rest agenda := by
    have here : 0 < m.weight Call.countsDown :=
      total_pos_of_mem (by rw [agenda]; exact List.mem_cons_self)
        (by simp [Call.countsDown])
    have remaining := s.counted.remaining
    omega

/-- Every step has ended when there is an answer. -/
theorem terminal_of_answer? {code : Int} (answer : m.run.answer? = some code) :
    ∀ n ∈ f.names, (m.status n).isTerminal = true := by
  have none := (Coordinator.answer?_eq_some.1 answer).1
  apply Moment.unfinished_eq_zero.1
  have remaining := s.counted.remaining
  omega

/-- When the run is idle there is no answer exactly while some step has not ended. -/
theorem answer?_of_isIdle (idle : m.isIdle = true) :
    m.run.remaining = m.unfinished f.names ∧
      (m.run.answer? = none ↔ ∃ n ∈ f.names, (m.status n).isTerminal = false) := by
  have remaining : m.run.remaining = m.unfinished f.names := by
    rw [s.counted.remaining, weight_of_isIdle idle, Nat.add_zero]
  refine ⟨remaining, ?_⟩
  rw [Coordinator.answer?_eq_none, remaining, Nat.pos_iff_ne_zero, ne_eq,
    Moment.unfinished_eq_zero]
  simp

end Sound

namespace Setup

/-- **The bookkeeping of a run is exact.** At every moment of every run the books are right. Waiting
for the end is answered only when every step has ended, with zero if no step has failed and with one
otherwise. When the run is idle what remains are exactly the steps that have not ended, so waiting
goes on exactly while there is such a step. -/
theorem bookkeeping (s : Setup) (xs : List Choice) :
    Books s.flow (s.after xs) (s.past xs) ∧
      (∀ code, (s.after xs).run.answer? = some code →
        (∀ n ∈ s.flow.names, ((s.after xs).status n).isTerminal = true) ∧
          code = if ∃ n ∈ s.flow.names, (s.after xs).status n = .failed then 1 else 0) ∧
      ((s.after xs).isIdle = true →
        (s.after xs).run.remaining = (s.after xs).unfinished s.flow.names ∧
          ((s.after xs).run.answer? = none ↔
            ∃ n ∈ s.flow.names, ((s.after xs).status n).isTerminal = false)) := by
  have sound := s.sound xs
  have exact := s.exact xs
  refine ⟨?_, fun code answer => ?_, sound.answer?_of_isIdle⟩
  · exact sound.books s.wellFormed exact (s.ledger .group xs) (s.ledger .run xs)
  · exact ⟨sound.terminal_of_answer? answer, Moment.code_of_answer? s.wellFormed exact answer⟩

/-- A run of the small setup in which the last executor fails is answered with one. -/
theorem bookkeeping_sample :
    (sample.after (sampleRun (.exit 0) (.exit 3))).run.answer? = some 1 ∧
      ((∀ n ∈ sample.flow.names,
          ((sample.after (sampleRun (.exit 0) (.exit 3))).status n).isTerminal = true) ∧
        (1 : Int) = if ∃ n ∈ sample.flow.names,
          (sample.after (sampleRun (.exit 0) (.exit 3))).status n = .failed then 1 else 0) := by
  have answer : (sample.after (sampleRun (.exit 0) (.exit 3))).run.answer? = some 1 := by
    decide +kernel
  exact ⟨answer, (sample.bookkeeping (sampleRun (.exit 0) (.exit 3))).2.1 1 answer⟩

end Setup

end StepFlow
