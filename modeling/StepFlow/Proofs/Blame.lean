import StepFlow.Proofs.Bookkeeping
import StepFlow.Proofs.Course.ExecutionBound
import StepFlow.Proofs.Invocation
import StepFlow.Proofs.Outcome

/-! # Who is to blame

In a run that nobody stops no step fails without a reason. A leaf that was run fails with what its
executor returned, a step that was skipped has a failed hard dependency, its own or that of a group
that it lies under, and a group that was run has a failed child. Each reason comes before what it is
the reason for, in the order in which the phases of the flow are ranked, so going from reason to
reason leads to a leaf whose executor has failed.

Main statement: `Setup.failure_has_culprit`. -/

namespace StepFlow

/-- What a step may **blame** for its failure. -/
inductive Flow.Blames (f : Flow) : Name → Name → Prop where
  /-- A hard dependency of its own. -/
  | dependency {d : Dependency} (mem : d ∈ f.dependencies) (hard : d.soft = false) :
      Blames f d.src d.dst
  /-- A hard dependency of a group that it lies under. -/
  | above {n : Name} {d : Dependency} (under : f.Under n d.src) (mem : d ∈ f.dependencies)
      (hard : d.soft = false) : Blames f n d.dst
  /-- A child, if it is a group. -/
  | child {n g : Name} (child : f.groupOf? n = some g) : Blames f g n

/-- A leaf is a **culprit** when its executor was invoked and has returned a code that is not zero,
an error or a panic. -/
structure Moment.Culprit (f : Flow) (m : Moment) (n : Name) : Prop where
  isLeaf : f.isLeaf n = true
  invoked : n ∈ m.run.invoked
  returned : ∃ code ≠ 0, m.run.returned n = some code

/-- The failure of a step **goes back** to another one when a chain of blames leads from the one to
the other and all that is blamed has failed. -/
def Moment.GoesBack (f : Flow) (m : Moment) : Name → Name → Prop :=
  Relation.ReflTransGen fun n k => f.Blames n k ∧ m.status k = .failed

/-- What is blamed ends before what blames it. -/
theorem Flow.Blames.rank_lt {f : Flow} {rank : Phase → Nat} {n k : Name}
    (blames : f.Blames n k) (wf : f.WellFormed) (ranking : f.precedence.Ranking rank) :
    rank (.finish k) < rank (.finish n) := by
  cases blames with
  | @dependency d mem =>
    have before := wf.rank_finish_dst_lt ranking mem
    have lasts := wf.rank_start_lt_finish ranking (wf.contains_src mem)
    omega
  | @above _ d under mem =>
    have before := wf.rank_finish_dst_lt ranking mem
    have inside := wf.rank_start_under_lt ranking under
    have lasts := wf.rank_start_lt_finish ranking under.contains
    omega
  | child child => exact wf.rank_finish_lt_group ranking child

/-- What an executor has returned it has been invoked for. -/
theorem Manned.invoked_of_returned {workers : Nat} {c : Coordinator} (man : Manned workers c)
    {n : Name} {code : Int} (returned : c.returned n = some code) : n ∈ c.invoked := by
  unfold Coordinator.returned at returned
  split at returned
  · rename_i o ended
    exact man.invoked n _ ended rfl
  · cases returned

namespace Sound

variable {f : Flow} {workers : Nat} {asked : Bool} {m : Moment} {h : History} {n : Name}
  (s : Sound f workers asked m h)

include s

/-! ## Reasons -/

/-- A leaf whose executor has returned was run. -/
theorem run_of_returned {code : Int} (returned : m.run.returned n = some code) :
    h.verdict n = some .run := by
  refine s.posted.executed n fun none => ?_
  rw [Coordinator.returned, none] at returned
  cases returned

section Unstopped

variable (unstopped : m.run.stopped = false)

include unstopped

/-- A step that was skipped has a broken dependency to blame. -/
theorem blames_of_skipped (skipped : h.Skipped n) : ∃ k, f.Blames n k ∧ m.status k = .failed := by
  have broken : ∀ g, h.verdict g = some .skip →
      ∃ d ∈ f.dependencies, d.src = g ∧ d.soft = false ∧ m.status d.dst = .failed := by
    intro g skip
    rcases (s.judged.skip g skip).2 with stopped | ⟨d, hd, hard, failed⟩
    · rw [unstopped] at stopped
      cases stopped
    · obtain ⟨mem, src⟩ := Flow.mem_edgesFrom.1 hd
      exact ⟨d, mem, src, hard, failed⟩
  rcases skipped with own | claimed
  · obtain ⟨d, mem, rfl, hard, failed⟩ := broken n own
    exact ⟨d.dst, .dependency mem hard, failed⟩
  · -- it was claimed with a group that was skipped
    obtain ⟨g, under, skip⟩ := (s.recorded.claim_iff n).1 claimed
    obtain ⟨d, mem, rfl, hard, failed⟩ := broken g skip
    exact ⟨d.dst, .above under mem hard, failed⟩

/-- **A step that has failed is a culprit or blames what has failed.** -/
theorem culprit_or_blames (man : Manned workers m.run) (failed : m.status n = .failed) :
    m.Culprit f n ∨ ∃ k, f.Blames n k ∧ m.status k = .failed := by
  obtain ⟨code, ended, status⟩ := s.recorded.exists_end (by rw [failed]; rfl)
  have left : m.status n ≠ .waiting := by
    rw [failed]
    decide
  by_cases skipped : h.Skipped n
  · exact .inr (s.blames_of_skipped unstopped skipped)
  · have run : h.verdict n = some .run := by
      by_contra still
      exact skipped ((s.recorded.skipped_iff left).2 still)
    cases isGroup : f.isGroup n with
    | true =>
      rcases s.judged.failed n isGroup failed with before | ⟨k, child, broken⟩
      · exact absurd before skipped
      · exact .inr ⟨k, .child child, broken⟩
    | false =>
      have isLeaf := Flow.isLeaf_of_not_isGroup (s.orderly.contains_of_status left) isGroup
      have returned := s.returned_of_end unstopped isLeaf run ended
      rw [failed, eq_comm, Status.ofExitCode_eq_failed] at status
      exact .inl ⟨isLeaf, man.invoked_of_returned returned, code, status, returned⟩

/-- **Every failure goes back to a culprit.** -/
theorem exists_culprit (wf : f.WellFormed) (man : Manned workers m.run)
    (failed : m.status n = .failed) : ∃ k, m.GoesBack f n k ∧ m.Culprit f k := by
  obtain ⟨rank, ranking⟩ := wf.ranked
  -- by induction on a bound of the rank of the end, which is lower for what is blamed
  have all : ∀ r n, rank (.finish n) < r → m.status n = .failed →
      ∃ k, m.GoesBack f n k ∧ m.Culprit f k := by
    intro r
    induction r with
    | zero => exact fun n lower => absurd lower (Nat.not_lt_zero _)
    | succ r ih =>
      intro n lower failed
      rcases s.culprit_or_blames unstopped man failed with culprit | ⟨k, blames, broken⟩
      · exact ⟨n, .refl, culprit⟩
      · have earlier := blames.rank_lt wf ranking
        obtain ⟨last, back, culprit⟩ := ih k (by omega) broken
        exact ⟨last, .head ⟨blames, broken⟩ back, culprit⟩
  exact all _ n (Nat.lt_succ_self _) failed

/-! ## Runs that have ended -/

/-- A culprit that has ended has failed. -/
theorem failed_of_culprit (culprit : m.Culprit f n) (ended : (m.status n).isTerminal = true) :
    m.status n = .failed := by
  obtain ⟨code, bad, returned⟩ := culprit.returned
  obtain ⟨last, mem, status⟩ := s.recorded.exists_end ended
  have same := s.returned_of_end unstopped culprit.isLeaf (s.run_of_returned returned) mem
  rw [returned, Option.some.injEq] at same
  rw [status, ← same, Status.ofExitCode_eq_failed]
  exact bad

/-- A leaf that has succeeded was invoked once and has returned zero. -/
theorem of_succeeded (man : Manned workers m.run) (isLeaf : f.isLeaf n = true)
    (succeeded : m.status n = .succeeded) :
    m.run.invoked.count n = 1 ∧ m.run.returned n = some 0 := by
  have run : h.verdict n = some .run := by
    by_contra still
    have left : m.status n ≠ .waiting := by
      rw [succeeded]
      decide
    have spared := s.spared (.inl ((s.recorded.skipped_iff left).2 still))
    exact spared.unSucceeded succeeded
  obtain ⟨code, ended, status⟩ := s.recorded.exists_end (by rw [succeeded]; rfl)
  rw [succeeded, eq_comm, Status.ofExitCode_eq_succeeded] at status
  subst status
  have returned := s.returned_of_end unstopped isLeaf run ended
  exact ⟨List.count_eq_one_of_mem s.handed.nodup_invoked (man.invoked_of_returned returned),
    returned⟩

end Unstopped

end Sound

/-- **No failure without a culprit.** At every moment of every run that nobody has stopped, a chain
of blames leads from every step that has failed through steps that have failed to a leaf whose
executor was invoked and has returned a code that is not zero, an error or a panic. So waiting for
the end is answered with one exactly if there is such a leaf, and otherwise with zero, and then
every step has succeeded and every leaf was invoked exactly once and has returned zero. -/
theorem Setup.failure_has_culprit (s : Setup) (xs : List Choice)
    (unstopped : (s.after xs).run.stopped = false) :
    (∀ n, (s.after xs).status n = .failed →
      ∃ k, (s.after xs).GoesBack s.flow n k ∧ (s.after xs).Culprit s.flow k) ∧
      ∀ answer, (s.after xs).run.answer? = some answer →
        (answer = 0 ∨ answer = 1) ∧
        (answer = 1 ↔ ∃ k, (s.after xs).Culprit s.flow k) ∧
        (answer = 0 → (∀ n ∈ s.flow.names, (s.after xs).status n = .succeeded) ∧
          ∀ n, s.flow.isLeaf n = true →
            (s.after xs).run.invoked.count n = 1 ∧ (s.after xs).run.returned n = some 0) := by
  have sound := s.sound xs
  have man := s.manned xs
  have culprit := fun n (failed : (s.after xs).status n = .failed) =>
    sound.exists_culprit unstopped s.wellFormed man failed
  refine ⟨culprit, fun answer answered => ?_⟩
  have ended := sound.terminal_of_answer? answered
  have code := Moment.code_of_answer? s.wellFormed (s.exact xs) answered
  -- some step has failed exactly if there is a culprit, since every failure goes back to one
  have broken : (∃ n ∈ s.flow.names, (s.after xs).status n = .failed) ↔
      ∃ k, (s.after xs).Culprit s.flow k := by
    constructor
    · rintro ⟨n, -, failed⟩
      obtain ⟨k, -, guilty⟩ := culprit n failed
      exact ⟨k, guilty⟩
    · rintro ⟨k, guilty⟩
      have known := Flow.contains_iff_mem_names.1 (Flow.contains_of_isLeaf guilty.isLeaf)
      exact ⟨k, known, sound.failed_of_culprit unstopped guilty (ended k known)⟩
  -- there is an answer only when everything has ended, so without a failure all has succeeded
  have succeeded : answer = 0 → ∀ n ∈ s.flow.names, (s.after xs).status n = .succeeded := by
    intro zero n hn
    have settled := ended n hn
    cases status : (s.after xs).status n with
    | succeeded => rfl
    | failed =>
      rw [if_pos ⟨n, hn, status⟩, zero] at code
      cases code
    | waiting | inProgress =>
      rw [status] at settled
      cases settled
  refine ⟨?_, ?_, fun zero => ⟨succeeded zero, fun n isLeaf => ?_⟩⟩
  · rw [code]
    split
    · exact .inr rfl
    · exact .inl rfl
  · rw [← broken, code]
    split
    · rename_i failed
      exact iff_of_true rfl failed
    · rename_i sound
      exact iff_of_false (by decide) sound
  · have known := Flow.contains_iff_mem_names.1 (Flow.contains_of_isLeaf isLeaf)
    exact sound.of_succeeded unstopped man isLeaf (succeeded zero n known)

/-- In a run of the small setup the failure of the group goes back to the leaf in it and the answer
is one, and in another run the answer is zero and both leaves have returned zero. -/
theorem Setup.failure_has_culprit_sample :
    ((sample.after (sampleRun (.exit 0) .panic)).run.stopped = false ∧
        (sample.after (sampleRun (.exit 0) .panic)).status "g" = .failed ∧
        (sample.after (sampleRun (.exit 0) .panic)).run.answer? = some 1 ∧
        ∃ k, (sample.after (sampleRun (.exit 0) .panic)).GoesBack sample.flow "g" k ∧
          (sample.after (sampleRun (.exit 0) .panic)).Culprit sample.flow k) ∧
      (sample.after (sampleRun (.exit 0) (.exit 0))).run.stopped = false ∧
        (sample.after (sampleRun (.exit 0) (.exit 0))).run.answer? = some 0 ∧
        ∀ n, sample.flow.isLeaf n = true →
          (sample.after (sampleRun (.exit 0) (.exit 0))).run.invoked.count n = 1 ∧
            (sample.after (sampleRun (.exit 0) (.exit 0))).run.returned n = some 0 := by
  have unstopped : (sample.after (sampleRun (.exit 0) .panic)).run.stopped = false := by
    decide +kernel
  have failed : (sample.after (sampleRun (.exit 0) .panic)).status "g" = .failed := by
    decide +kernel
  have one : (sample.after (sampleRun (.exit 0) .panic)).run.answer? = some 1 := by decide +kernel
  have unstopped' : (sample.after (sampleRun (.exit 0) (.exit 0))).run.stopped = false := by
    decide +kernel
  have zero : (sample.after (sampleRun (.exit 0) (.exit 0))).run.answer? = some 0 := by
    decide +kernel
  obtain ⟨-, -, good⟩ := (sample.failure_has_culprit _ unstopped').2 0 zero
  exact ⟨⟨unstopped, failed, one, (sample.failure_has_culprit _ unstopped).1 "g" failed⟩,
    unstopped', zero, (good rfl).2⟩

end StepFlow
