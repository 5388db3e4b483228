import StepFlow.Proofs.Course.Setup

/-! # When executors are invoked

The executor of a leaf is invoked at most once, and only after the leaf was committed at a moment at
which nothing stood against it. The decision rule looks at the targets of the dependencies and at
the group of the leaf; the groups further out agree because a group is committed by itself only
inside groups that run, and what was found stays true because what has ended keeps its status.

A step with a hard dependency on what has failed, and whatever lies under a group that is skipped,
is spared: no executor is invoked for it and it can only fail.

Main statement: `Setup.invoked_nodup_and_cleared`. -/

namespace StepFlow

/-- A leaf is **cleared** at a moment that commits it to run: what it waits for has ended, and has
succeeded where the dependency is hard, and every group that it lies under is in progress and was
itself committed to run. -/
structure Cleared (f : Flow) (m : Moment) (h : History) (n : Name) : Prop where
  committed : m.commit? = some (n, .run)
  ended : ∀ d ∈ f.edgesFrom n, (m.status d.dst).isTerminal = true
  succeeded : ∀ d ∈ f.edgesFrom n, d.soft = false → m.status d.dst = .succeeded
  groups : ∀ g, f.Under n g → m.status g = .inProgress ∧ h.Committed g .run

/-- A step is **spared**: its executor was not invoked, it has not succeeded, and if it has ended
then with exit code one. -/
structure Spared (m : Moment) (h : History) (n : Name) : Prop where
  unInvoked : n ∉ m.run.invoked
  unSucceeded : m.status n ≠ .succeeded
  code : ∀ code, (n, code) ∈ h.ends → code = 1

namespace Sound

variable {f : Flow} {workers : Nat} {asked : Bool} {m : Moment} {h : History} {n g : Name}
  (s : Sound f workers asked m h)

include s

/-! ## Steps that run -/

/-- A step whose executor was invoked is a leaf that was committed to run. -/
theorem of_invoked (invoked : n ∈ m.run.invoked) :
    f.isLeaf n = true ∧ h.verdict n = some .run := by
  obtain ⟨e, he, -⟩ := s.handed.invoked n invoked
  have run := s.posted.executed n (by rw [he]; exact fun h => by cases h)
  refine ⟨((s.posted.staged n).1 ?_).1, run⟩
  cases ht : m.run.stages.get? n with
  | some t => rfl
  | none =>
    have fits := s.posted.fits n
    rw [Coordinator.post, ht, he] at fits
    cases fits

/-- The groups that a step lies under are in progress from its commit until it has ended. -/
theorem active_of_run (run : h.verdict n = some .run) (active : (m.status n).isTerminal = false)
    (under : f.Under n g) : m.status g = .inProgress := by
  have left := s.recorded.status_ne_waiting (s.recorded.run_of_under under (.inl run))
  cases hg : m.status g with
  | waiting => exact absurd hg left
  | inProgress => rfl
  | succeeded | failed =>
    have settled := s.counted.terminal_under under (by rw [hg]; rfl)
    rw [active] at settled
    cases settled

/-- The groups that a step lies under when it is committed are in progress and run. -/
theorem groups_of_commit? {d : Directive} (commit : m.commit? = some (n, d))
    (under : f.Under n g) : m.status g = .inProgress ∧ h.verdict g = some .run := by
  obtain ⟨waits, decided, t, found, directive⟩ := s.orderly.of_commit? commit
  obtain ⟨k, direct, outwards⟩ := Flow.under_iff.1 under
  have group := direct
  rw [Flow.groupOf?_of_step? found] at group
  have active : m.status k = .inProgress :=
    Coordinator.released_of_directive (by rw [directive]; exact decided) group
  have run := s.recorded.run_of_waiting waits (.of_groupOf? direct) (by rw [active]; decide)
  rcases outwards with rfl | above
  · exact ⟨active, run⟩
  · exact ⟨s.active_of_run run (by rw [active]; rfl) above,
      s.recorded.run_of_under above (.inl run)⟩

/-- **A step that is committed to run is cleared.** -/
theorem cleared (commit : m.commit? = some (n, .run)) : Cleared f m h n where
  committed := commit
  ended _ hd := s.orderly.ended_of_commit? commit hd
  succeeded _ hd := s.orderly.succeeded_of_commit_run commit hd
  groups _ under := by
    obtain ⟨active, run⟩ := s.groups_of_commit? commit under
    exact ⟨active, s.recorded.verdict_eq_run_iff.1 run⟩

/-! ## Steps that are spared -/

/-- A step that does not run is spared. -/
theorem spared (lost : h.Skipped n ∨ m.status n = .waiting) : Spared m h n := by
  have still : h.verdict n ≠ some .run := by
    rcases lost with skipped | waits
    · intro run
      rcases skipped with hn | hn <;> rw [run] at hn <;> cases hn
    · rw [(s.recorded.verdict_eq_none n).2 waits]
      exact fun h => by cases h
  have code : ∀ code, (n, code) ∈ h.ends → code = 1 := by
    intro code hn
    rcases lost with skipped | waits
    · exact (s.handed.ends n code hn).1 skipped
    · have status := s.recorded.status_of_end n code hn
      exact absurd (status.symm.trans waits) (Status.ofExitCode_ne_waiting code)
  refine ⟨fun invoked => still (s.of_invoked invoked).2, fun succeeded => ?_, code⟩
  -- what has succeeded ended with an exit code, and that was zero
  obtain ⟨last, ended, status⟩ := s.recorded.exists_end (by rw [succeeded]; rfl)
  rw [succeeded, code last ended] at status
  cases status

/-- A step with a hard dependency on what has failed does not run. -/
theorem lost_of_broken {d : Dependency} (hd : d ∈ f.dependencies) (hard : d.soft = false)
    (failed : m.status d.dst = .failed) :
    h.Skipped d.src ∨ m.status d.src = .waiting := by
  by_cases waits : m.status d.src = .waiting
  · exact .inr waits
  · refine .inl ((s.recorded.skipped_iff waits).2 fun run => ?_)
    have sound := (s.judged.run d.src run d (Flow.mem_edgesFrom.2 ⟨hd, rfl⟩)).2 hard
    rw [failed] at sound
    cases sound

/-- What lies under a step that does not run does not run either. -/
theorem lost_of_under (under : f.Under n g) (lost : h.Skipped g ∨ m.status g = .waiting) :
    h.Skipped n ∨ m.status n = .waiting := by
  rcases lost with skipped | waits
  · exact .inl (.inr (s.recorded.claim_of_under under skipped))
  · exact .inr (s.orderly.waiting_under under waits)

end Sound

/-! ## Invocations in a run -/

/-- **When executors are invoked.** In every run the executor of a leaf is invoked at most once, and
only after a moment that committed the leaf and at which it was cleared; from then on the groups
that the leaf lies under are in progress until it has ended. A step with a hard dependency on a step
that has failed is spared together with everything under it, and so is a step that was committed to
be skipped. -/
theorem Setup.invoked_nodup_and_cleared (s : Setup) (xs : List Choice) :
    (s.after xs).run.invoked.Nodup ∧
      (∀ n ∈ (s.after xs).run.invoked, s.flow.isLeaf n = true ∧
        ∃ later x earlier, xs = later ++ x :: earlier ∧
          Cleared s.flow (s.after earlier) (s.past earlier) n ∧
          ∀ ys, ((s.after (ys ++ x :: earlier)).status n).isTerminal = false →
            ∀ g, s.flow.Under n g → (s.after (ys ++ x :: earlier)).status g = .inProgress) ∧
      (∀ d ∈ s.flow.dependencies, d.soft = false → (s.after xs).status d.dst = .failed →
        Spared (s.after xs) (s.past xs) d.src ∧
          ∀ n, s.flow.Under n d.src → Spared (s.after xs) (s.past xs) n) ∧
      ∀ g, History.Committed (s.past xs) g .skip → Spared (s.after xs) (s.past xs) g ∧
        ∀ n, s.flow.Under n g → Spared (s.after xs) (s.past xs) n := by
  have sound := s.sound xs
  refine ⟨sound.handed.nodup_invoked, fun n invoked => ?_, fun d hd hard failed => ?_,
    fun g skip => ?_⟩
  · obtain ⟨leaf, run⟩ := sound.of_invoked invoked
    obtain ⟨k, hk, commit⟩ := sound.recorded.verdict_eq_run_iff.1 run
    obtain ⟨x, later, earlier, split, rfl⟩ := Moment.mem_past_iff.1 hk
    refine ⟨leaf, later, x, earlier, split, (s.sound earlier).cleared commit, ?_⟩
    intro ys active g under
    have committed : History.Committed (s.past (ys ++ x :: earlier)) n .run :=
      ⟨_, Moment.mem_past_iff.2 ⟨x, ys, earlier, rfl, rfl⟩, commit⟩
    have later := s.sound (ys ++ x :: earlier)
    exact later.active_of_run (later.recorded.verdict_eq_run_iff.2 committed) active under
  · have lost := sound.lost_of_broken hd hard failed
    exact ⟨sound.spared lost, fun n under => sound.spared (sound.lost_of_under under lost)⟩
  · have lost : History.Skipped (s.past xs) g ∨ (s.after xs).status g = .waiting :=
      .inl (.inl (sound.recorded.verdict_eq_skip_iff.2 skip))
    exact ⟨sound.spared lost, fun n under => sound.spared (sound.lost_of_under under lost)⟩

end StepFlow
