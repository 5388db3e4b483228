import StepFlow.Proofs.Progress
import StepFlow.Proofs.Flow.Rules

/-! # The outcome of a run

Whenever no task of a run is ready, the statuses of the steps are those that the rules of the flow
give for the exit codes that the executors have returned so far, as long as nobody has stopped the
run. Neither the order in which the executors returned nor the number of workers nor a listener
makes a difference.

A run keeps a record of who was committed to run, was committed to be skipped or was claimed, so
each step has a standing in the run. These standings satisfy the rules when no task is ready, and
the rules have one solution.

Main statement: `Setup.outcome_of_isIdle`. -/

namespace StepFlow

/-- The exit code that the executor of a leaf has **returned**, if it has; an error and a panic
count as `-1`. -/
def Coordinator.returned (c : Coordinator) (n : Name) : Option Int :=
  match c.executions.get? n with
  | some (.ended outcome) => some outcome.code
  | _ => none

/-- The **standing** of a step in a run: its verdict, and how it has ended if it was run. -/
def Moment.standing (m : Moment) (h : History) (n : Name) : Standing :=
  match h.verdict n with
  | none => .waiting
  | some .skip | some .claim => .skipped
  | some .run =>
    match m.status n with
    | .waiting | .inProgress => .running
    | .succeeded => .succeeded
    | .failed => .failed

namespace Sound

variable {f : Flow} {workers : Nat} {asked : Bool} {m : Moment} {h : History} {n g : Name}
  (s : Sound f workers asked m h)

/-! ## Standings in a run -/

theorem standing_of_skipped (skipped : h.Skipped n) : m.standing h n = .skipped := by
  rcases skipped with hv | hv <;> simp only [Moment.standing, hv]

theorem atStart_of_run (run : h.verdict n = some .run) :
    (m.standing h n).atStart = .running := by
  simp only [Moment.standing, run]
  split <;> rfl

/-- A step stood as skipped when it started exactly if it was skipped. -/
theorem atStart_eq_skipped_iff : (m.standing h n).atStart = .skipped ↔ h.Skipped n := by
  constructor
  · intro start
    cases hv : h.verdict n with
    | none => simp [Moment.standing, hv, Standing.atStart] at start
    | some v =>
      cases v with
      | run => rw [atStart_of_run hv] at start; cases start
      | skip => exact .inl hv
      | claim => exact .inr hv
  · intro skipped
    rw [standing_of_skipped skipped]
    rfl

/-- A step stood as running when it started exactly if it was run. -/
theorem atStart_eq_running_iff :
    (m.standing h n).atStart = .running ↔ h.verdict n = some .run := by
  constructor
  · intro start
    cases hv : h.verdict n with
    | none => simp [Moment.standing, hv, Standing.atStart] at start
    | some v =>
      cases v with
      | run => rfl
      | skip => rw [standing_of_skipped (.inl hv)] at start; cases start
      | claim => rw [standing_of_skipped (.inr hv)] at start; cases start
  · exact atStart_of_run

/-! ## What has been returned -/

include s in
/-- Without a stop a leaf that was run has ended with what its executor returned. -/
theorem returned_of_end (unstopped : m.run.stopped = false) (isLeaf : f.isLeaf n = true)
    (run : h.verdict n = some .run) {code : Int} (ended : (n, code) ∈ h.ends) :
    m.run.returned n = some code := by
  rcases (s.handed.ends n code ended).2 isLeaf run with ⟨outcome, he, rfl⟩ | ⟨stopped, -⟩
  · rw [Coordinator.returned, he]
  · rw [unstopped] at stopped
    cases stopped

/-! ## What is skipped has failed -/

section Idle

variable (idle : m.isIdle = true)

include s idle

/-- No worker is left with a leaf that was skipped. -/
private theorem works_of_skipped (skipped : h.Skipped n) : m.run.works n = 0 := by
  rw [Coordinator.works, Table.weightAt]
  cases ht : m.run.stages.get? n with
  | none => rfl
  | some t =>
    have still : h.verdict n ≠ some .run := by
      rcases skipped with hv | hv <;> rw [hv] <;> decide
    have verdict := fun v => s.posted.verdict n t v ht
    cases t with
    | done => rfl
    | queued | granted | starting | running => exact absurd (verdict .run rfl) still
    | dispatched skip =>
      have rests := s.workerDue_of_isIdle idle n
      rw [Coordinator.post, ht] at rests
      cases rests

/-- No worker is left with a leaf whose executor has returned. -/
private theorem works_of_returned {code : Int} (returned : m.run.returned n = some code) :
    m.run.works n = 0 := by
  unfold Coordinator.returned at returned
  split at returned
  · rename_i outcome he
    have fits := s.posted.fits n
    have rests := s.workerDue_of_isIdle idle n
    rw [Coordinator.works, Table.weightAt]
    cases ht : m.run.stages.get? n with
    | none => rfl
    | some t =>
      rw [Coordinator.post, ht, he] at fits rests
      cases t with
      | done => rfl
      | running => cases rests
      | dispatched | queued | granted | starting => cases fits
  · cases returned

/-- What was skipped has ended: its children were skipped as well, and they have ended. -/
theorem terminal_of_skipped (wf : f.WellFormed) (skipped : h.Skipped n) :
    (m.status n).isTerminal = true := by
  refine s.terminal_of_closed wf (fun n k skipped direct => ?_)
    (fun n _ => clear_of_isIdle idle n) (fun n skipped => ?_)
    (fun n skipped _ => s.works_of_skipped idle skipped) skipped
  · exact .inr (s.recorded.claim_of_under (.of_groupOf? direct) skipped)
  · rcases skipped with hv | hv <;> exact s.recorded.status_ne_waiting hv

/-- What was skipped has failed. -/
theorem failed_of_skipped (wf : f.WellFormed) (skipped : h.Skipped n) :
    m.status n = .failed := by
  obtain ⟨code, ended, status⟩ :=
    s.recorded.exists_end (s.terminal_of_skipped idle wf skipped)
  rw [status, (s.handed.ends n code ended).1 skipped]
  rfl

/-- The standing of a step tells its status. -/
theorem status_standing (wf : f.WellFormed) (n : Name) :
    (m.standing h n).status = m.status n := by
  cases hv : h.verdict n with
  | none =>
    simp only [Moment.standing, hv, Standing.status]
    exact ((s.recorded.verdict_eq_none n).1 hv).symm
  | some v =>
    cases v with
    | skip =>
      rw [standing_of_skipped (.inl hv), s.failed_of_skipped idle wf (.inl hv)]
      rfl
    | claim =>
      rw [standing_of_skipped (.inr hv), s.failed_of_skipped idle wf (.inr hv)]
      rfl
    | run =>
      simp only [Moment.standing, hv]
      cases status : m.status n with
      | waiting => exact absurd status (s.recorded.status_ne_waiting hv)
      | inProgress | succeeded | failed => rfl

/-! ## The standings satisfy the rules -/

section Unstopped

variable (wf : f.WellFormed) (unstopped : m.run.stopped = false)

include wf unstopped

/-- A step stood when it started as the rules decide. -/
theorem atStart_standing (isAsked : asked = true) {t : Step} (found : f.step? t.name = some t) :
    (m.standing h t.name).atStart = f.decision (m.standing h) t := by
  have member : ∀ {g}, f.groupOf? t.name = some g ↔ g ∈ t.group := by
    rw [Flow.groupOf?_of_step? found]
    exact Iff.rfl
  unfold Flow.decision
  simp only [atStart_eq_skipped_iff, atStart_eq_running_iff, s.status_standing idle wf]
  split
  · -- its group is skipped, so it was claimed
    rename_i spared
    obtain ⟨g, hg, skipped⟩ := spared
    rw [standing_of_skipped (.inr (s.recorded.claim_iff_group.2 ⟨g, member.2 hg, skipped⟩))]
    rfl
  · rename_i unclaimed
    have own : h.verdict t.name ≠ some .claim := by
      intro claimed
      obtain ⟨g, direct, skipped⟩ := s.recorded.claim_iff_group.1 claimed
      exact unclaimed ⟨g, member.1 direct, skipped⟩
    split
    · rename_i decided
      obtain ⟨released, ended⟩ := decided
      -- the decision rule has nothing left to do, so the step does not wait
      have left : m.status t.name ≠ .waiting := by
        intro waits
        refine Flow.directive_ne_noop_iff.2 ⟨waits, fun g hg => ?_, ended⟩
          (s.directive_of_isIdle idle isAsked found)
        have started := s.recorded.status_ne_waiting (released g hg)
        cases status : m.status g with
        | inProgress => exact status
        | waiting => exact absurd status started
        | succeeded | failed =>
          have settled := s.counted.ended_child t.name g (member.2 hg) (by rw [status]; rfl)
          rw [waits] at settled
          cases settled
      split
      · -- a step that runs has no broken dependency
        rename_i broken
        obtain ⟨d, hd, hard, failed⟩ := broken
        refine atStart_eq_skipped_iff.2 ((s.recorded.skipped_iff left).2 fun run => ?_)
        have sound := (s.judged.run t.name run d hd).2 hard
        rw [failed] at sound
        cases sound
      · -- nobody has stopped the run, so nothing but a broken dependency skips a step
        rename_i intact
        refine atStart_of_run (Classical.byContradiction fun still => ?_)
        rcases (s.recorded.skipped_iff left).2 still with skip | claim
        · rcases (s.judged.skip t.name skip).2 with stopped | broken
          · rw [unstopped] at stopped
            cases stopped
          · exact intact broken
        · exact own claim
    · -- a step with a verdict of its own was decided, and what was found then still holds
      rename_i undecided
      cases hv : h.verdict t.name with
      | none => simp only [Moment.standing, hv, Standing.atStart]
      | some v =>
        refine absurd ?_ undecided
        have parent := fun c g hg => s.recorded.parent t.name g c (member.2 hg)
        cases v with
        | run => exact ⟨parent (.inl hv), fun d hd => (s.judged.run t.name hv d hd).1⟩
        | skip => exact ⟨parent (.inr hv), (s.judged.skip t.name hv).1⟩
        | claim => exact absurd hv own

/-- The status of a leaf that runs is what its executor has returned. -/
private theorem leaf_of_run (isLeaf : f.isLeaf n = true) (run : h.verdict n = some .run) :
    m.status n = match m.run.returned n with
      | none => .inProgress
      | some code => .ofExitCode code := by
  have earned : (m.status n).isTerminal = true →
      ∃ code, m.run.returned n = some code ∧ m.status n = .ofExitCode code := by
    intro ended
    obtain ⟨code, mem, status⟩ := s.recorded.exists_end ended
    exact ⟨code, s.returned_of_end unstopped isLeaf run mem, status⟩
  have left := s.recorded.status_ne_waiting run
  cases back : m.run.returned n with
  | none =>
    cases status : m.status n with
    | waiting => exact absurd status left
    | inProgress => rfl
    | succeeded | failed =>
      obtain ⟨code, now, -⟩ := earned (by rw [status]; rfl)
      rw [back] at now
      cases now
  | some code =>
    -- in an idle run nothing is left that could keep a leaf from ending whose executor has returned
    have ended : (m.status n).isTerminal = true := by
      refine s.terminal_of_children wf (clear_of_isIdle idle _) left
        (fun _ => s.works_of_returned idle back) ?_
      intro k direct
      exact absurd isLeaf (Flow.not_isLeaf_of_isGroup (wf.isGroup_of_groupOf? direct))
    obtain ⟨last, now, status⟩ := earned ended
    rw [back] at now
    cases now
    exact status

omit unstopped in
/-- The status of a group that runs is what its children have come to. -/
private theorem group_of_run (isGroup : f.isGroup n = true) (run : h.verdict n = some .run) :
    m.status n =
      if ∀ c ∈ f.childrenOf n, (m.status c).isTerminal = true then
        if ∀ c ∈ f.childrenOf n, m.status c = .succeeded then .succeeded else .failed
      else .inProgress := by
  have left := s.recorded.status_ne_waiting run
  split
  · rename_i children
    have ended : (m.status n).isTerminal = true := by
      refine s.terminal_of_children wf (clear_of_isIdle idle _) left (fun isLeaf => ?_)
        fun k direct => children k (wf.mem_childrenOf.2 direct)
      exact absurd isLeaf (Flow.not_isLeaf_of_isGroup isGroup)
    split
    · rename_i succeeded
      exact s.judged.succeeded_of_children s.recorded isGroup run ended fun k direct =>
        succeeded k (wf.mem_childrenOf.2 direct)
    · rename_i failed
      cases status : m.status n with
      | failed => rfl
      | succeeded =>
        have good := (s.judged.succeeded n isGroup status).2
        exact absurd (fun c hc => good c (wf.mem_childrenOf.1 hc)) failed
      | waiting | inProgress => rw [status] at ended; cases ended
  · rename_i children
    cases status : m.status n with
    | inProgress => rfl
    | waiting => exact absurd status left
    | succeeded | failed =>
      refine absurd (fun c hc => ?_) children
      exact s.counted.ended_child c n (wf.mem_childrenOf.1 hc) (by rw [status]; rfl)

/-- A step that was run stands as the rules say. -/
theorem standing_of_run {t : Step} (found : f.step? t.name = some t)
    (run : h.verdict t.name = some .run) :
    m.standing h t.name = t.course m.run.returned (m.standing h) := by
  simp only [Moment.standing, run]
  unfold Step.course
  cases kind : t.kind with
  | leaf action =>
    have isLeaf : f.isLeaf t.name = true := by
      rw [Flow.isLeaf_of_step? found, Step.isGroup, kind]
      rfl
    rw [s.leaf_of_run idle wf unstopped isLeaf run]
    cases m.run.returned t.name with
    | none => rfl
    | some code => by_cases zero : code = 0 <;> simp [Status.ofExitCode, zero]
  | group children =>
    have isGroup : f.isGroup t.name = true := by
      rw [Flow.isGroup_of_step? found, Step.isGroup, kind]
    have members : f.childrenOf t.name = children := by
      rw [Flow.childrenOf_of_step? found, Step.children, kind]
    simp only [s.group_of_run idle wf isGroup run, members, s.status_standing idle wf]
    by_cases ended : ∀ c ∈ children, (m.status c).isTerminal = true
    · by_cases succeeded : ∀ c ∈ children, m.status c = .succeeded
      · simp only [if_pos ended, if_pos succeeded]
      · simp only [if_pos ended, if_neg succeeded]
    · simp only [if_neg ended]

/-- **The standings in a run satisfy the rules.** -/
theorem standing_eq_rule_of_isIdle (isAsked : asked = true) {t : Step}
    (found : f.step? t.name = some t) :
    m.standing h t.name = f.rule m.run.returned (m.standing h) t := by
  have start := s.atStart_standing idle wf unstopped isAsked found
  unfold Flow.rule
  rw [← start]
  cases hv : h.verdict t.name with
  | none => simp only [Moment.standing, hv, Standing.atStart]
  | some v =>
    cases v with
    | skip => rw [standing_of_skipped (.inl hv)]; rfl
    | claim => rw [standing_of_skipped (.inr hv)]; rfl
    | run =>
      rw [atStart_of_run hv]
      exact s.standing_of_run idle wf unstopped found hv

end Unstopped

end Idle

end Sound

/-! ## Outcomes of runs -/

/-- The status of a step by the rules of a flow, given what the executors have returned. -/
def Flow.outcome (f : Flow) (returned : Name → Option Int) (n : Name) : Status :=
  (f.standing returned n).status

/-- **The outcome of a run.** When no task of a run that was started and never stopped is ready, the
status of every step is the one that the rules give for what the executors have returned. -/
theorem Setup.outcome_of_isIdle (s : Setup) (xs : List Choice) (asked : s.asked xs = true)
    (unstopped : (s.after xs).run.stopped = false) (idle : (s.after xs).isIdle = true) :
    (∀ n ∈ s.flow.names, (s.after xs).status n = s.flow.outcome (s.after xs).run.returned n) ∧
      ∀ t ∈ s.flow.steps, s.flow.standing (s.after xs).run.returned t.name =
        s.flow.rule (s.after xs).run.returned (s.flow.standing (s.after xs).run.returned) t := by
  have sound := s.sound xs
  refine ⟨fun n hn => ?_, fun t ht => ?_⟩
  · have solved := s.wellFormed.eq_standing
      (fun t found => sound.standing_eq_rule_of_isIdle idle s.wellFormed unstopped asked found)
      (Flow.contains_iff_mem_names.2 hn)
    rw [Flow.outcome, ← solved, sound.status_standing idle s.wellFormed]
  · exact s.wellFormed.standing_eq_rule (s.wellFormed.step?_of_mem ht)

/-- In a run of the small setup the leaf in the group fails, and the rules say that so does the
group. -/
theorem Setup.outcome_sample :
    (sample.asked (sampleRun (.exit 0) (.exit 3)) = true ∧
        (sample.after (sampleRun (.exit 0) (.exit 3))).run.stopped = false ∧
        (sample.after (sampleRun (.exit 0) (.exit 3))).isIdle = true) ∧
      (sample.after (sampleRun (.exit 0) (.exit 3))).status "a" = .succeeded ∧
      (sample.after (sampleRun (.exit 0) (.exit 3))).status "g" = .failed := by
  have asked : sample.asked (sampleRun (.exit 0) (.exit 3)) = true := by decide +kernel
  have unstopped : (sample.after (sampleRun (.exit 0) (.exit 3))).run.stopped = false := by
    decide +kernel
  have idle : (sample.after (sampleRun (.exit 0) (.exit 3))).isIdle = true := by decide +kernel
  have outcome := (sample.outcome_of_isIdle _ asked unstopped idle).1
  refine ⟨⟨asked, unstopped, idle⟩, ?_, ?_⟩
  · rw [outcome "a" (by decide)]
    decide +kernel
  · rw [outcome "g" (by decide)]
    decide +kernel

end StepFlow
