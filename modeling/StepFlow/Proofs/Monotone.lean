import StepFlow.Proofs.Blame

/-! # More success

Success only spreads. If the executors do at least as well in one run as in another one, and the
flow asks for no more than the other, since some of its hard dependencies may be soft, then whatever
succeeds in the other run succeeds in this one too, and every executor that is invoked in the other
run is invoked in this one.

Nothing in a run can profit from a failure. This does not follow from looking at single steps, for a
step reads the ends of other steps and the starts of the groups around it, so the two runs are
compared phase by phase, in the order in which the phases of the flow are ranked.

Main statement: `Setup.successes_le`. -/

namespace StepFlow

/-! ## Soft dependencies -/

/-- The dependency with hard ones that are chosen, by their ends, turned soft. -/
def Dependency.soften (chosen : Name → Name → Bool) (d : Dependency) : Dependency :=
  { d with soft := d.soft || chosen d.src d.dst }

namespace Flow

/-- The flow with the chosen dependencies turned soft. -/
def soften (chosen : Name → Name → Bool) (f : Flow) : Flow :=
  { f with dependencies := f.dependencies.map (Dependency.soften chosen) }

variable {f : Flow} {chosen : Name → Name → Bool} {n : Name}

/-- A choice of no dependency changes nothing. -/
theorem soften_none (f : Flow) : f.soften (fun _ _ => false) = f := by
  have same : Dependency.soften (fun _ _ => false) = id := by
    funext d
    simp [Dependency.soften]
  simp [soften, same]

/-- What is hard in the softened flow is so in the flow. -/
theorem exists_edge_of_soften {d : Dependency} (hd : d ∈ (f.soften chosen).edgesFrom n)
    (hard : d.soft = false) : ∃ d' ∈ f.edgesFrom n, d'.dst = d.dst ∧ d'.soft = false := by
  obtain ⟨mem, src⟩ := mem_edgesFrom.1 hd
  obtain ⟨d', hd', rfl⟩ := List.mem_map.1 mem
  exact ⟨d', mem_edgesFrom.2 ⟨hd', src⟩, rfl, (Bool.or_eq_false_iff.1 hard).1⟩

end Flow

/-! ### Declarations of soft dependencies -/

namespace Declaration

variable {chosen : Name → Name → Bool} {ds : List Declaration}

/-- The declaration with the chosen dependencies turned soft. -/
def soften (chosen : Name → Name → Bool) : Declaration → Declaration
  | .wait d => .wait (d.soften chosen)
  | other => other

theorem introduced_soften : introduced (ds.map (soften chosen)) = introduced ds := by
  rw [introduced, introduced, List.filterMap_map]
  congr 1
  funext d
  cases d <;> rfl

theorem members_soften : members (ds.map (soften chosen)) = members ds := by
  rw [members, members, List.filterMap_map]
  congr 1
  funext d
  cases d <;> rfl

theorem waits_soften :
    waits (ds.map (soften chosen)) = (waits ds).map (Dependency.soften chosen) := by
  rw [waits, waits, List.filterMap_map, List.map_filterMap]
  congr 1
  funext d
  cases d <;> rfl

/-- Several declarations of one dependency are chosen together, so it makes no difference whether
they are turned soft before or after one is entered among others. -/
theorem enter_soften (d : Dependency) (merged : List Dependency) :
    enter (d.soften chosen) (merged.map (Dependency.soften chosen)) =
      (enter d merged).map (Dependency.soften chosen) := by
  induction merged with
  | nil => rfl
  | cons e rest ih =>
    have ends : (e.soften chosen).ends = (d.soften chosen).ends ↔ e.ends = d.ends := Iff.rfl
    have before : Before (d.soften chosen) (e.soften chosen) ↔ Before d e := Iff.rfl
    rw [List.map_cons, enter, enter]
    simp only [ends, before]
    split
    · rename_i same
      obtain ⟨src, dst⟩ := ends_eq_iff.1 same
      simp only [List.map_cons, Dependency.soften, src, dst, Bool.or_and_distrib_right]
    · split
      · rfl
      · rw [ih, List.map_cons]

theorem mergeWaits_soften (waits : List Dependency) :
    mergeWaits (waits.map (Dependency.soften chosen)) =
      (mergeWaits waits).map (Dependency.soften chosen) := by
  induction waits using List.reverseRecOn with
  | nil => rfl
  | append_singleton earlier d ih =>
    rw [List.map_append, List.map_singleton, mergeWaits_concat, mergeWaits_concat, ih, enter_soften]

/-- Softer declarations fit as well. -/
theorem Fit.soften (fit : Fit ds) : Fit (ds.map (soften chosen)) where
  names := by rw [introduced_soften]; exact fit.names
  members := by rw [introduced_soften, members_soften]; exact fit.members
  waits := by
    rw [introduced_soften, waits_soften]
    refine ⟨?_, ?_, ?_⟩
    · rintro _ mem
      obtain ⟨d, hd, rfl⟩ := List.mem_map.1 mem
      exact fit.waits.src d hd
    · rintro _ mem
      obtain ⟨d, hd, rfl⟩ := List.mem_map.1 mem
      exact fit.waits.dst d hd
    · rintro _ mem
      obtain ⟨d, hd, rfl⟩ := List.mem_map.1 mem
      exact fit.waits.apart d hd

end Declaration

/-- **A flow stays accepted when dependencies are declared soft instead of hard.** -/
theorem Flow.declare_soften {chosen : Name → Name → Bool} {ds : List Declaration} {f : Flow}
    (declared : declare ds = .ok f) :
    declare (ds.map (Declaration.soften chosen)) = .ok (f.soften chosen) := by
  obtain ⟨fit, ranked, rfl⟩ := declare_eq_ok_iff.1 declared
  have flow : assemble (ds.map (Declaration.soften chosen)) = (assemble ds).soften chosen := by
    rw [assemble, Declaration.introduced_soften, Declaration.members_soften,
      Declaration.waits_soften, Declaration.mergeWaits_soften]
    rfl
  -- phases do not know whether a dependency is soft
  have phases : ((assemble ds).soften chosen).precedence = (assemble ds).precedence := by
    rw [precedence, soften]
    simp only [List.map_map]
    rfl
  refine declare_eq_ok_iff.2 ⟨fit.soften, ?_, flow.symm⟩
  rw [flow, phases]
  exact ranked

/-- The setup whose flow has the chosen dependencies turned soft. -/
def Setup.soften (s : Setup) (chosen : Name → Name → Bool) : Setup where
  declarations := s.declarations.map (Declaration.soften chosen)
  flow := s.flow.soften chosen
  declared := Flow.declare_soften s.declared
  workers := s.workers
  hasRuntime := s.hasRuntime
  registry := s.registry
  coordinator := .initial (s.flow.soften chosen) s.workers s.registry
  created := Coordinator.create_of_create s.created

/-! ## Complete runs -/

/-- A moment is the end of a **complete** run in which the executors have the given outcomes:
nobody has stopped the run, every step has ended, and so has every executor as it was to. -/
structure Moment.Complete (f : Flow) (outcome : Name → Outcome) (m : Moment) : Prop where
  unstopped : m.run.stopped = false
  ended : ∀ n ∈ f.names, (m.status n).isTerminal = true
  outcomes : ∀ n o, m.run.executions.get? n = some (.ended o) → o = outcome n

/-- The outcomes of executors that have all ended can be looked up. -/
theorem Coordinator.eq_outcome_of_entries {c : Coordinator} {outcome : Name → Outcome}
    (all : ∀ e ∈ c.executions.entries, e.2 = .ended (outcome e.1)) (n : Name) (o : Outcome)
    (ended : c.executions.get? n = some (.ended o)) : o = outcome n :=
  Execution.ended.inj (all (n, .ended o) (Table.mem_of_find? ended))

namespace Sound

variable {f : Flow} {workers : Nat} {asked : Bool} {m : Moment} {h : History} {n : Name}
  {outcome : Name → Outcome}

section Complete

variable (s : Sound f workers asked m h) (complete : m.Complete f outcome)

include s complete

/-- A leaf that was run has ended with the outcome of its executor. -/
theorem status_of_complete (isLeaf : f.isLeaf n = true) (run : h.verdict n = some .run) :
    m.run.returned n = some (outcome n).code ∧ m.status n = .ofExitCode (outcome n).code := by
  have known := Flow.contains_iff_mem_names.1 (Flow.contains_of_isLeaf isLeaf)
  obtain ⟨code, ended, status⟩ := s.recorded.exists_end (complete.ended n known)
  have returned := s.returned_of_end complete.unstopped isLeaf run ended
  have agrees : code = (outcome n).code := by
    unfold Coordinator.returned at returned
    split at returned
    · rename_i o execution
      rw [← complete.outcomes n o execution]
      exact (Option.some.inj returned).symm
    · cases returned
  exact ⟨agrees ▸ returned, agrees ▸ status⟩

/-- A group that was run has succeeded if its children have. -/
theorem succeeded_of_children (isGroup : f.isGroup n = true) (run : h.verdict n = some .run)
    (children : ∀ k, f.groupOf? k = some n → m.status k = .succeeded) :
    m.status n = .succeeded := by
  have left := s.recorded.status_ne_waiting run
  have ended :=
    complete.ended n (Flow.contains_iff_mem_names.1 (s.orderly.contains_of_status left))
  exact s.judged.succeeded_of_children s.recorded isGroup run ended children

end Complete

/-- What has succeeded was run. -/
theorem run_of_succeeded (s : Sound f workers asked m h) (succeeded : m.status n = .succeeded) :
    h.verdict n = some .run := by
  have left : m.status n ≠ .waiting := by
    rw [succeeded]
    decide
  by_contra still
  exact (s.spared (.inl ((s.recorded.skipped_iff left).2 still))).unSucceeded succeeded

/-! ## Two complete runs -/

section Pair

variable {chosen : Name → Name → Bool} {workers' : Nat} {asked' : Bool} {m' : Moment}
  {h' : History} {outcome' : Name → Outcome}
  (s : Sound f workers asked m h) (complete : m.Complete f outcome)
  (s' : Sound (f.soften chosen) workers' asked' m' h')
  (complete' : m'.Complete (f.soften chosen) outcome')

include s s' complete'

/-- A step that runs in the first run does so in the second one, if its group does and what it waits
for has succeeded there as well as in the first. -/
theorem run_of_run (known : f.contains n = true) (run : h.verdict n = some .run)
    (group : ∀ g, f.groupOf? n = some g → h.verdict g = some .run → h'.verdict g = some .run)
    (targets : ∀ d ∈ f.edgesFrom n, m.status d.dst = .succeeded → m'.status d.dst = .succeeded) :
    h'.verdict n = some .run := by
  have left : m'.status n ≠ .waiting := by
    intro waits
    have settled := complete'.ended n (Flow.contains_iff_mem_names.1 known)
    rw [waits] at settled
    cases settled
  by_contra still
  rcases (s'.recorded.skipped_iff left).2 still with skip | claim
  · -- nobody has stopped the run, so a hard dependency is broken, and then it is so in both runs
    rcases (s'.judged.skip n skip).2 with stopped | ⟨d', hd', hard', failed⟩
    · rw [complete'.unstopped] at stopped
      cases stopped
    · obtain ⟨d, hd, dst, hard⟩ := Flow.exists_edge_of_soften hd' hard'
      have good := targets d hd ((s.judged.run n run d hd).2 hard)
      rw [dst, failed] at good
      cases good
  · obtain ⟨g, direct, skipped⟩ := s'.recorded.claim_iff_group.1 claim
    have started := group g direct (s.recorded.parent n g (.inl run) direct)
    rcases skipped with hg | hg <;> rw [started] at hg <;> cases hg

include complete

/-- A step that succeeds in the first run does so in the second one, if it runs there and its
children have succeeded there as well as in the first. -/
theorem succeeded_of_succeeded
    (better : ∀ n, f.isLeaf n = true → (outcome n).code = 0 → (outcome' n).code = 0)
    (succeeded : m.status n = .succeeded) (run' : h'.verdict n = some .run)
    (children : ∀ k, f.groupOf? k = some n → m.status k = .succeeded → m'.status k = .succeeded) :
    m'.status n = .succeeded := by
  have left : m.status n ≠ .waiting := by
    rw [succeeded]
    decide
  cases isGroup : f.isGroup n with
  | true =>
    have good := (s.judged.succeeded n isGroup succeeded).2
    exact s'.succeeded_of_children complete' isGroup run' fun k hk => children k hk (good k hk)
  | false =>
    have isLeaf := Flow.isLeaf_of_not_isGroup (s.orderly.contains_of_status left) isGroup
    have status := (s.status_of_complete complete isLeaf (s.run_of_succeeded succeeded)).2
    rw [succeeded, eq_comm, Status.ofExitCode_eq_succeeded] at status
    rw [(s'.status_of_complete complete' isLeaf run').2, Status.ofExitCode_eq_succeeded]
    exact better n isLeaf status

/-- **Starts and successes carry over** from the first run to the second one. -/
theorem carries_over (wf : f.WellFormed)
    (better : ∀ n, f.isLeaf n = true → (outcome n).code = 0 → (outcome' n).code = 0)
    (known : f.contains n = true) :
    (h.verdict n = some .run → h'.verdict n = some .run) ∧
      (m.status n = .succeeded → m'.status n = .succeeded) := by
  obtain ⟨rank, ranking⟩ := wf.ranked
  -- by induction on a bound of the ranks, for the starts and the ends of all steps at once
  have phases : ∀ r n, f.contains n = true →
      (rank (.start n) < r → h.verdict n = some .run → h'.verdict n = some .run) ∧
        (rank (.finish n) < r → m.status n = .succeeded → m'.status n = .succeeded) := by
    intro r
    induction r with
    | zero => exact fun n _ => ⟨fun low => absurd low (Nat.not_lt_zero _),
        fun low => absurd low (Nat.not_lt_zero _)⟩
    | succ r ih =>
      intro n known
      have started : rank (.start n) < r + 1 →
          h.verdict n = some .run → h'.verdict n = some .run := by
        intro low run
        refine s.run_of_run s' complete' known run (fun g direct => ?_) fun d hd => ?_
        · have below := wf.rank_start_group_lt ranking direct
          exact (ih g (wf.contains_of_mem_members direct)).1 (by omega)
        · obtain ⟨mem, rfl⟩ := Flow.mem_edgesFrom.1 hd
          have below := wf.rank_finish_dst_lt ranking mem
          exact (ih d.dst (wf.contains_dst mem)).2 (by omega)
      refine ⟨started, fun low succeeded => ?_⟩
      have first := wf.rank_start_lt_finish ranking known
      refine s.succeeded_of_succeeded complete s' complete' better succeeded
        (started (by omega) (s.run_of_succeeded succeeded)) fun k direct => ?_
      have below := wf.rank_finish_lt_group ranking direct
      exact (ih k (Flow.contains_of_groupOf? direct)).2 (by omega)
  obtain ⟨start, finish⟩ :=
    phases (rank (.start n) + rank (.finish n) + 1) n known
  exact ⟨start (by omega), finish (by omega)⟩

end Pair

end Sound

/-- **Success only spreads.** Take two complete runs, of a flow and of the flow with any of its hard
dependencies turned soft, with any numbers of workers, listeners and schedules, in which every leaf
whose executor succeeds in the first one has an executor that succeeds in the second one. Then every
step that has succeeded in the first run has succeeded in the second one, and every executor that
was invoked in the first run was invoked in the second one. -/
theorem Setup.successes_le (s s' : Setup) (chosen : Name → Name → Bool)
    (softer : s'.flow = s.flow.soften chosen) (outcome outcome' : Name → Outcome)
    (better : ∀ n, s.flow.isLeaf n = true → (outcome n).code = 0 → (outcome' n).code = 0)
    (xs xs' : List Choice) (complete : (s.after xs).Complete s.flow outcome)
    (complete' : (s'.after xs').Complete s'.flow outcome') :
    (∀ n, (s.after xs).status n = .succeeded → (s'.after xs').status n = .succeeded) ∧
      ∀ n ∈ (s.after xs).run.invoked, n ∈ (s'.after xs').run.invoked := by
  have sound := s.sound xs
  have sound' := s'.sound xs'
  rw [softer] at sound' complete'
  have carries := fun {n} (known : s.flow.contains n = true) =>
    sound.carries_over complete sound' complete' s.wellFormed better known
  refine ⟨fun n succeeded => ?_, fun n invoked => ?_⟩
  · have known := sound.orderly.contains_of_status (n := n) (by rw [succeeded]; decide)
    exact (carries known).2 succeeded
  · obtain ⟨isLeaf, run⟩ := sound.of_invoked invoked
    have run' := (carries (Flow.contains_of_isLeaf isLeaf)).1 run
    exact (s'.manned xs').invoked_of_returned
      (sound'.status_of_complete complete' isLeaf run').1

/-- In a run of the small setup in which the leaf in the group fails, the other leaf has succeeded
and both were invoked. This stays so when no executor fails any more, and when the group waits for
the first leaf only softly. -/
theorem Setup.successes_le_sample :
    (sample.after (sampleRun (.exit 0) (.exit 0))).status "a" = .succeeded ∧
      "b" ∈ ((sample.soften fun _ _ => true).after
        (sampleRun (.exit 0) (.exit 3))).run.invoked := by
  have status : (sample.after (sampleRun (.exit 0) (.exit 3))).status "a" = .succeeded := by
    decide +kernel
  have invoked : "b" ∈ (sample.after (sampleRun (.exit 0) (.exit 3))).run.invoked := by
    decide +kernel
  have complete : (sample.after (sampleRun (.exit 0) (.exit 3))).Complete sample.flow
      fun n => if n = "b" then .exit 3 else .exit 0 :=
    { unstopped := by decide +kernel
      ended := by decide +kernel
      outcomes := Coordinator.eq_outcome_of_entries (by decide +kernel) }
  have better := sample.successes_le sample (fun _ _ => false) (Flow.soften_none _).symm
    _ (fun _ => .exit 0) (fun _ _ _ => rfl) _ (sampleRun (.exit 0) (.exit 0)) complete
    { unstopped := by decide +kernel
      ended := by decide +kernel
      outcomes := Coordinator.eq_outcome_of_entries (by decide +kernel) }
  have softer := sample.successes_le (sample.soften fun _ _ => true) (fun _ _ => true) rfl
    _ _ (fun _ _ zero => zero) _ (sampleRun (.exit 0) (.exit 3)) complete
    { unstopped := by decide +kernel
      ended := by decide +kernel
      outcomes := Coordinator.eq_outcome_of_entries (by decide +kernel) }
  exact ⟨better.1 "a" status, softer.2 "b" invoked⟩

end StepFlow
