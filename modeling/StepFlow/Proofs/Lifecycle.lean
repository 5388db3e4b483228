import StepFlow.Proofs.Course.Setup

/-! # The life of a step

The table of statuses lets every status be overwritten by every other, and still a step waits, is in
progress and ends, in this order and each at most once, because whoever writes a status finds the
one that comes before it. A step is committed at most once, and its end is propagated once.

A group ends after everything in it, and how it ends tells how its children have ended.

Main statement: `Setup.lifecycle`. -/

namespace StepFlow

/-- The **path** to a status: the statuses that a step goes through until it has it, the latest
first. -/
def Status.path : Status → List Status
  | .waiting => [.waiting]
  | .inProgress => [.inProgress, .waiting]
  | .succeeded => [.succeeded, .inProgress, .waiting]
  | .failed => [.failed, .inProgress, .waiting]

/-! ## The trail of a step -/

/-- The **trail** of a step: the statuses that it has had in a run, the latest first. A move after
which the status is the same adds nothing. -/
def Setup.trail (s : Setup) (n : Name) : List Choice → List Status
  | [] => [s.start.status n]
  | x :: earlier =>
    let now := (s.after (x :: earlier)).status n
    if now = (s.after earlier).status n then s.trail n earlier else now :: s.trail n earlier

namespace Setup

variable (s : Setup)

/-- **The trail of a step is the path to its status.** -/
theorem trail_eq (n : Name) (xs : List Choice) : s.trail n xs = ((s.after xs).status n).path := by
  induction xs with
  | nil =>
    rw [trail, after, Moment.after_nil, s.start_eq, Moment.status_initial]
    rfl
  | cons x earlier ih =>
    have o := (s.sound earlier).orderly
    have change : Change (s.after earlier) (s.after (x :: earlier)) := o.change_next x
    rw [trail, ih]
    -- each way in which a change passes a step takes it one status on along its path, or none
    rcases o.passes s.wellFormed change n with
      ⟨v, -, before, now⟩ | ⟨code, -, -, before, now⟩ | ⟨-, -, same⟩
    · rw [before, now]
      rfl
    · rw [before, now, Status.ofExitCode]
      split <;> rfl
    · simp only [same, if_true]

/-! ## Lives in a run -/

/-- **The life of a step.** In every run the statuses of a step are waiting, then in progress, then
succeeded or failed; it is committed at most once, it has left its waiting exactly once when it does
not wait, and its end was propagated exactly once when it has ended. When a group has ended then so
has everything under it; a group that has succeeded was committed to run and its children have
succeeded; a group that has failed was committed to be skipped, or a group that it lies under was,
or a child of it has failed; and when a group waits then nothing under it has ended or has a
worker. -/
theorem lifecycle (xs : List Choice) :
    (∀ n, s.trail n xs = ((s.after xs).status n).path ∧
      History.commits (s.past xs) n ≤ 1 ∧
      History.departures (s.past xs) n = (if (s.after xs).status n = .waiting then 0 else 1) ∧
      History.endings (s.past xs) n = if ((s.after xs).status n).isTerminal then 1 else 0) ∧
    ∀ g, s.flow.isGroup g = true →
      (((s.after xs).status g).isTerminal = true →
        ∀ n, s.flow.Under n g → ((s.after xs).status n).isTerminal = true) ∧
      ((s.after xs).status g = .succeeded → History.Committed (s.past xs) g .run ∧
        ∀ n, s.flow.groupOf? n = some g → (s.after xs).status n = .succeeded) ∧
      ((s.after xs).status g = .failed → History.Committed (s.past xs) g .skip ∨
        (∃ k, s.flow.Under g k ∧ History.Committed (s.past xs) k .skip) ∨
        ∃ n, s.flow.groupOf? n = some g ∧ (s.after xs).status n = .failed) ∧
      ((s.after xs).status g = .waiting → ∀ n, s.flow.Under n g →
        ((s.after xs).status n).isTerminal = false ∧ (s.after xs).run.stages.get? n = none) := by
  have sound := s.sound xs
  have record := sound.recorded
  refine ⟨fun n => ⟨s.trail_eq n xs, ?_, record.departures n, record.endings n⟩,
    fun g isGroup => ⟨?_, ?_, ?_, ?_⟩⟩
  · -- a step is committed or claimed when it leaves its waiting, which it does once
    exact (History.commits_le_departures _ n).trans (record.departures_le n)
  · intro ended n under
    exact sound.counted.terminal_under under ended
  · intro succeeded
    obtain ⟨run, children⟩ := sound.judged.succeeded g isGroup succeeded
    exact ⟨record.verdict_eq_run_iff.1 run, children⟩
  · intro failed
    rcases sound.judged.failed g isGroup failed with skipped | child
    · rcases record.skipped_iff_committed.1 skipped with own | above
      · exact .inl own
      · exact .inr (.inl above)
    · exact .inr (.inr child)
  · intro waits n under
    have status := sound.orderly.waiting_under under waits
    exact ⟨by rw [status]; rfl, sound.posted.free record status⟩

end Setup

end StepFlow
