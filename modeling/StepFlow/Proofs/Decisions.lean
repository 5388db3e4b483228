import StepFlow.Proofs.Course.Setup

/-! # Decisions

What the decision rule gives a step: nothing while the step, its group or a dependency stands in the
way, and of the other steps those with a broken dependency are skipped. The rule can be followed by
reading the dependencies one by one and giving up at the first open one. A broken one that was read
before is only remembered, so the order in which they are read makes no difference.

In a run a decision holds until it is acted on. What a step depends on has ended and keeps its
status, its group is in progress and cannot end before the step, and as long as the group is in
progress nobody else claims the step.

Main statements: `Flow.directiveOf_eq` for the order of the dependencies, and
`Setup.directive_byRule_and_stays`. -/

namespace StepFlow

/-! ## Reading the dependencies one by one -/

namespace StatusTable

/-- The decision from dependencies that are **read one by one**, with what is pending so far: an
open one ends the reading with nothing, and a broken one has the step skipped unless an open one
follows. -/
def scan (t : StatusTable) (pending : Directive) : List Dependency → Directive
  | [] => pending
  | d :: rest =>
    if t.isOpen d then .noop else t.scan (if t.isBroken d then .skip else pending) rest

/-- The decision on a step with given dependencies, which are read in the given order. -/
def directiveOf (t : StatusTable) (s : Step) (ds : List Dependency) : Directive :=
  if t.status s.name ≠ .waiting then .noop
  else if !t.isReleased s then .noop
  else t.scan .run ds

/-- An open dependency takes precedence over broken ones wherever they stand. -/
theorem scan_eq (t : StatusTable) (pending : Directive) (ds : List Dependency) :
    t.scan pending ds =
      if ds.any t.isOpen then .noop else if ds.any t.isBroken then .skip else pending := by
  induction ds generalizing pending with
  | nil => rfl
  | cons d rest ih =>
    rw [scan, ih, List.any_cons, List.any_cons]
    cases t.isOpen d with
    | true => rfl
    | false =>
      -- once the step is to be skipped, whether another one is broken makes no difference
      cases t.isBroken d with
      | true => simp
      | false => rfl

end StatusTable

/-- **The order of the dependencies makes no difference**, nor does reading one of them again. -/
theorem Flow.directiveOf_eq {f : Flow} {s : Step} {ds : List Dependency}
    (same : ∀ d, d ∈ ds ↔ d ∈ f.edgesFrom s.name) (t : StatusTable) :
    t.directiveOf s ds = f.directive t s := by
  have any : ∀ p : Dependency → Bool, ds.any p = (f.edgesFrom s.name).any p := by
    intro p
    rw [Bool.eq_iff_iff, List.any_eq_true, List.any_eq_true]
    simp only [same]
  rw [StatusTable.directiveOf, directive, StatusTable.scan_eq, any, any]

/-! ## The rule -/

namespace Flow

variable {f : Flow} {t u : StatusTable} {s : Step}

/-- The rule gives a step nothing when the step has left its waiting, its group is not in progress
or a dependency is open. -/
theorem directive_eq_noop_iff : f.directive t s = .noop ↔ t.status s.name ≠ .waiting ∨
    (∃ g, s.group = some g ∧ t.status g ≠ .inProgress) ∨
      ∃ d ∈ f.edgesFrom s.name, (t.status d.dst).isTerminal = false := by
  rw [← not_iff_not, ← ne_eq, directive_ne_noop_iff]
  push Not
  simp only [ne_eq, Bool.not_eq_false]

/-- A step that gets something is skipped when a hard dependency has failed. -/
theorem directive_eq_skip_iff : f.directive t s = .skip ↔ f.directive t s ≠ .noop ∧
    ∃ d ∈ f.edgesFrom s.name, d.soft = false ∧ t.status d.dst = .failed := by
  constructor
  · intro skip
    have decided : f.directive t s ≠ .noop := by rw [skip]; decide
    refine ⟨decided, ?_⟩
    rw [directive_of_ne_noop decided] at skip
    by_contra sound
    rw [if_neg sound] at skip
    cases skip
  · rintro ⟨decided, broken⟩
    rw [directive_of_ne_noop decided, if_pos broken]

/-- A step runs in the remaining case. -/
theorem directive_eq_run_iff : f.directive t s = .run ↔ f.directive t s ≠ .noop ∧
    ∀ d ∈ f.edgesFrom s.name, d.soft = false → t.status d.dst ≠ .failed := by
  have three : f.directive t s = .run ↔ f.directive t s ≠ .noop ∧ f.directive t s ≠ .skip := by
    cases f.directive t s <;> simp
  rw [three, ne_eq (f.directive t s) .skip, directive_eq_skip_iff]
  refine and_congr_right fun decided => ?_
  simp [decided]

/-- A decision depends on the statuses of the step, of its group and of the targets of its
dependencies only. -/
theorem directive_congr (decided : f.directive t s ≠ .noop) (waits : u.status s.name = .waiting)
    (active : ∀ g, s.group = some g → u.status g = .inProgress)
    (same : ∀ d ∈ f.edgesFrom s.name, u.status d.dst = t.status d.dst) :
    f.directive u s = f.directive t s := by
  have ended := (directive_ne_noop_iff.1 decided).2.2
  have again : f.directive u s ≠ .noop :=
    directive_ne_noop_iff.2 ⟨waits, active, fun d hd => by rw [same d hd]; exact ended d hd⟩
  rw [directive_of_ne_noop decided, directive_of_ne_noop again]
  have broken : (∃ d ∈ f.edgesFrom s.name, d.soft = false ∧ u.status d.dst = .failed) ↔
      ∃ d ∈ f.edgesFrom s.name, d.soft = false ∧ t.status d.dst = .failed :=
    exists_congr fun d => and_congr_right fun hd => by rw [same d hd]
  simp only [broken]

end Flow

/-- What a step is given is **by the rule** for a flow and statuses. -/
structure ByRule (f : Flow) (t : StatusTable) (s : Step) (d : Directive) : Prop where
  /-- Nothing, if the step does not wait, its group is not in progress or a dependency is open. -/
  noop : d = .noop ↔ t.status s.name ≠ .waiting ∨
    (∃ g, s.group = some g ∧ t.status g ≠ .inProgress) ∨
      ∃ e ∈ f.edgesFrom s.name, (t.status e.dst).isTerminal = false
  /-- Of the others those are skipped that have a hard dependency on what has failed. -/
  skip : d = .skip ↔ d ≠ .noop ∧
    ∃ e ∈ f.edgesFrom s.name, e.soft = false ∧ t.status e.dst = .failed
  /-- The rest run. -/
  run : d = .run ↔ d ≠ .noop ∧
    ∀ e ∈ f.edgesFrom s.name, e.soft = false → t.status e.dst ≠ .failed
  /-- The dependencies may be read in any order. -/
  order : ∀ es : List Dependency, (∀ e, e ∈ es ↔ e ∈ f.edgesFrom s.name) → t.directiveOf s es = d

/-- **The decision rule goes by the rule.** -/
theorem Flow.byRule (f : Flow) (t : StatusTable) (s : Step) : ByRule f t s (f.directive t s) where
  noop := directive_eq_noop_iff
  skip := directive_eq_skip_iff
  run := directive_eq_run_iff
  order _ same := directiveOf_eq same t

/-! ## Decisions in a run -/

namespace Sound

variable {f : Flow} {workers : Nat} {asked : Bool} {m : Moment} {h : History} {t : Step}
  (s : Sound f workers asked m h) (con : f.Consistent) (found : f.step? t.name = some t)
  (decided : f.directive m.run.statuses t ≠ .noop)
  (free : ∀ d, m.commit? ≠ some (t.name, d)) (x : Choice)

include s con found decided

include free in
/-- A step that is decided goes on waiting unless it is committed: it is not claimed for a group
that is skipped, since its group is in progress. -/
theorem waiting_next : (m.next x).status t.name = .waiting := by
  obtain ⟨waits, active, -⟩ := Flow.directive_ne_noop_iff.1 decided
  have change := s.orderly.change_next x
  rcases s.orderly.passes con change t.name with ⟨v, hv, -⟩ | ⟨_, -, -, before, -⟩ | ⟨-, -, same⟩
  · cases v with
    | run => exact absurd (Moment.commit?_of_run hv) (free _)
    | skip => exact absurd (Moment.commit?_of_skip hv) (free _)
    | claim =>
      obtain ⟨g, under, skip⟩ := (s.orderly.verdict?_eq_claim_iff con).1 hv
      have outer := s.orderly.waiting_of_verdict? con skip
      -- what is around a group in progress does not wait, so it is not skipped
      obtain ⟨k, direct, outwards⟩ := Flow.under_iff.1 under
      have inner : m.status k = .waiting := by
        rcases outwards with rfl | above
        · exact outer
        · exact s.orderly.waiting_under above outer
      rw [Flow.groupOf?_of_step? found] at direct
      exact absurd ((active k direct).symm.trans inner) (by decide)
  · exact absurd (before.symm.trans waits) (by decide)
  · exact same.trans waits

/-- The group of a step that is decided stays in progress while the step waits. -/
theorem group_next (waits : (m.next x).status t.name = .waiting) {g : Name}
    (group : t.group = some g) : (m.next x).status g = .inProgress := by
  have active : m.status g = .inProgress := (Flow.directive_ne_noop_iff.1 decided).2.1 g group
  have change := s.orderly.change_next x
  rcases s.orderly.passes con change g with ⟨_, -, before, -⟩ | ⟨code, -, -, -, now⟩ | ⟨-, -, same⟩
  · exact absurd (before.symm.trans active) (by decide)
  · -- a group ends after what is under it
    have under : f.Under t.name g :=
      .of_groupOf? (by rw [Flow.groupOf?_of_step? found, group])
    have ended := (s.next con x).counted.terminal_under under
      (by rw [now]; exact Status.isTerminal_ofExitCode code)
    rw [waits] at ended
    cases ended
  · exact same.trans active

include free in
/-- **A move that does not commit a step keeps the decision on it.** -/
theorem directive_next :
    f.directive (m.next x).run.statuses t = f.directive m.run.statuses t := by
  have waits := s.waiting_next con found decided free x
  refine Flow.directive_congr decided waits
    (fun g group => s.group_next con found decided x waits group) fun d hd => ?_
  -- the target of a dependency has ended, since otherwise nothing would have been decided
  exact s.orderly.terminal_stays con (s.orderly.change_next x)
    ((Flow.directive_ne_noop_iff.1 decided).2.2 d hd)

end Sound

namespace Setup

variable (s : Setup) {t : Step} {xs : List Choice}

/-- **A decision stays** as long as the step has not been committed. -/
theorem directive_stays (found : s.flow.step? t.name = some t)
    (decided : s.flow.directive (s.after xs).run.statuses t ≠ .noop) (ys : List Choice)
    (free : ∀ d, ¬ History.Committed (s.past (ys ++ xs)) t.name d) :
    s.flow.directive (s.after (ys ++ xs)).run.statuses t =
      s.flow.directive (s.after xs).run.statuses t := by
  induction ys with
  | nil => rfl
  | cons y earlier ih =>
    have before := ih fun d ⟨k, hk, commit⟩ => free d ⟨k, List.mem_cons_of_mem _ hk, commit⟩
    have now : ∀ d, (s.after (earlier ++ xs)).commit? ≠ some (t.name, d) :=
      fun d commit => free d ⟨_, List.mem_cons_self, commit⟩
    rw [List.cons_append, after_cons, ← before]
    exact (s.sound _).directive_next s.wellFormed found (by rw [before]; exact decided) now y

/-- What a step is committed with is the decision that has stood since it was made, unless the run
was stopped in the meantime. -/
theorem commit_of_decided (found : s.flow.step? t.name = some t)
    (decided : s.flow.directive (s.after xs).run.statuses t ≠ .noop) {ys : List Choice} {k : Moment}
    (hk : k ∈ s.past (ys ++ xs)) {d : Directive} (commit : k.commit? = some (t.name, d)) :
    s.flow.directive k.run.statuses t = s.flow.directive (s.after xs).run.statuses t ∧
      d = if k.run.stopped then .skip else s.flow.directive (s.after xs).run.statuses t := by
  have waits := (Flow.directive_ne_noop_iff.1 decided).1
  rw [past, Moment.past_append, List.mem_append] at hk
  rcases hk with since | before
  · obtain ⟨x, later, zs, -, here⟩ := Moment.mem_past_iff.1 since
    have here : s.after (zs ++ xs) = k := by rw [after, Moment.after_append]; exact here
    subst here
    have sound := s.sound (zs ++ xs)
    obtain ⟨still, -, t', found', directive⟩ := sound.orderly.of_commit? commit
    cases found.symm.trans found'
    -- at its commit the step waits, so it has not been committed before
    have stays := s.directive_stays found decided zs fun e committed =>
      sound.recorded.status_ne_waiting_of_committed committed still
    refine ⟨stays, ?_⟩
    rw [← directive, Coordinator.directive, sound.orderly.flow, stays]
    cases hd : s.flow.directive (s.after xs).run.statuses t with
    | noop => exact absurd hd decided
    | run => rfl
    | skip => exact (ite_self _).symm
  · exact absurd waits ((s.sound xs).recorded.status_ne_waiting_of_committed ⟨k, before, commit⟩)

/-- **Decisions are by the rule, and they stay.** Whatever the flow, the statuses and the step, the
decision rule gives what it is to give, in whichever order the dependencies are read. Once a step of
a run is to run or to be skipped, the rule gives the same at every later moment until the step is
committed. So it gives the same when the step is committed, and unless the run was stopped by then
the step is committed with that. -/
theorem directive_byRule_and_stays (s : Setup) :
    (∀ f t k, ByRule f t k (f.directive t k)) ∧
      ∀ xs t, s.flow.step? t.name = some t →
        s.flow.directive (s.after xs).run.statuses t ≠ .noop → ∀ ys,
          ((∀ d, ¬ History.Committed (s.past (ys ++ xs)) t.name d) →
            s.flow.directive (s.after (ys ++ xs)).run.statuses t =
              s.flow.directive (s.after xs).run.statuses t) ∧
          ∀ k ∈ s.past (ys ++ xs), ∀ d, k.commit? = some (t.name, d) →
            s.flow.directive k.run.statuses t = s.flow.directive (s.after xs).run.statuses t ∧
              d = if k.run.stopped then .skip
                else s.flow.directive (s.after xs).run.statuses t := by
  refine ⟨Flow.byRule, fun xs t found decided ys => ⟨?_, ?_⟩⟩
  · exact s.directive_stays found decided ys
  · exact fun k hk d commit => s.commit_of_decided found decided hk commit

/-- In the small setup the group is to be skipped as soon as the leaf that it waits for has failed,
and this is what it is committed with later. -/
theorem directive_byRule_and_stays_sample :
    sample.flow.directive
        (sample.after ((sampleRun (.exit 3) (.exit 0)).drop 37)).run.statuses
        ⟨"g", none, .group ["b"]⟩ = .skip ∧
      (∃ k ∈ sample.past (sampleRun (.exit 3) (.exit 0)), k.commit?.map (·.1) = some "g") ∧
      ∀ k ∈ sample.past (sampleRun (.exit 3) (.exit 0)), ∀ d,
        k.commit? = some ("g", d) → d = .skip := by
  have skip : sample.flow.directive
      (sample.after ((sampleRun (.exit 3) (.exit 0)).drop 37)).run.statuses
      ⟨"g", none, .group ["b"]⟩ = .skip := by decide +kernel
  refine ⟨skip, by decide +kernel, fun k hk d commit => ?_⟩
  have decided := sample.directive_byRule_and_stays.2 _ ⟨"g", none, .group ["b"]⟩ (by decide)
    (by rw [skip]; decide) ((sampleRun (.exit 3) (.exit 0)).take 37)
  rw [List.take_append_drop] at decided
  obtain ⟨-, same⟩ := decided.2 k hk d commit
  rw [same, skip, ite_self]

end Setup

end StepFlow
