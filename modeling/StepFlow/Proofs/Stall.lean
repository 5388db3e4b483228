import StepFlow.Proofs.Outcome
import Mathlib.Data.Set.Finite.List

/-! # Flows that would stall

The last check of declarations, that the phases can be ranked, refuses nothing that could have been
run to its end. A flow can be assembled without that check, and a coordinator can be created for it;
but if the check fails, some phases are stuck, each of them behind another one of them. As long as
nobody stops the run and every executor that returns is successful, nothing fails and nothing is
skipped, so a phase passes only after all phases that must come before it have passed. Hence none of
the stuck phases ever passes, and among them is the start of a step.

Main statement: `Flow.stalls_of_cycle`. -/

namespace StepFlow

/-! ## A start that is stuck -/

/-- Finitely many steps of which each has a member among them are nested in a circle: a step is a
member of one group only, so each of them is the member of another one. -/
theorem Flow.nested_in_circle {f : Flow} {circle : Set Name} (finite : circle.Finite)
    (members : ∀ n ∈ circle, ∃ c ∈ circle, f.groupOf? c = some n) :
    ∀ n ∈ circle, ∃ g ∈ circle, f.groupOf? n = some g := by
  have chosen : ∀ n : circle, ∃ c : circle, f.groupOf? c = some n.1 := by
    rintro ⟨n, hn⟩
    obtain ⟨c, hc, direct⟩ := members n hn
    exact ⟨⟨c, hc⟩, direct⟩
  choose member hmember using chosen
  have injective : Function.Injective member := by
    intro a b same
    have groups := hmember a
    rw [same, hmember b, Option.some.injEq] at groups
    exact Subtype.ext groups.symm
  have : Finite circle := finite.to_subtype
  have surjective := Finite.injective_iff_surjective.1 injective
  intro n hn
  obtain ⟨g, hg⟩ := surjective ⟨n, hn⟩
  have direct := hmember g
  rw [hg] at direct
  exact ⟨g, g.2, direct⟩

/-- Where phases are stuck, some of them are the starts of steps: finishes that are stuck without
any start belong to groups that are nested in a circle, and these cannot start either. -/
theorem Flow.Consistent.exists_stuck_start {f : Flow} (con : f.Consistent) {blocked : Set Phase}
    (stuck : f.precedence.Stuck blocked) :
    ∃ blocked', f.precedence.Stuck blocked' ∧ ∃ n, Phase.start n ∈ blocked' := by
  by_cases start : ∃ n, Phase.start n ∈ blocked
  · exact ⟨blocked, stuck, start⟩
  · rw [not_exists] at start
    have known : ∀ n, Phase.finish n ∈ blocked → f.contains n = true := by
      intro n hn
      obtain ⟨k, hk, same | same⟩ := Flow.mem_phases.1 (stuck.mem_phases _ hn)
      · cases same
      · cases same
        exact hk
    have finite : {n | Phase.finish n ∈ blocked}.Finite := by
      refine (List.finite_toSet f.names).subset fun n hn => ?_
      exact Flow.contains_iff_mem_names.1 (known n hn)
    have members : ∀ n, Phase.finish n ∈ blocked →
        ∃ c, Phase.finish c ∈ blocked ∧ f.groupOf? c = some n := by
      intro n hn
      obtain ⟨u, hu, inside⟩ := stuck.after _ hn
      rcases con.mem_before_finish.1 hu with rfl | ⟨c, hc, rfl⟩
      · exact absurd inside (start n)
      · exact ⟨c, inside, hc⟩
    have first : ∃ n, Phase.finish n ∈ blocked := by
      obtain ⟨v, hv⟩ := stuck.nonempty
      cases v with
      | start n => exact absurd hv (start n)
      | finish n => exact ⟨n, hv⟩
    obtain ⟨n, hn⟩ := first
    -- each of these steps is a member of another one, and its start is behind that one's start
    refine ⟨{v | ∃ n, Phase.finish n ∈ blocked ∧ v = .start n}, ⟨⟨_, n, hn, rfl⟩, ?_, ?_⟩, n,
      n, hn, rfl⟩
    · rintro v ⟨k, hk, rfl⟩
      exact Flow.mem_phases.2 ⟨k, known k hk, .inl rfl⟩
    · rintro v ⟨k, hk, rfl⟩
      obtain ⟨g, hg, direct⟩ := Flow.nested_in_circle finite members k hk
      exact ⟨.start g, con.mem_before_start.2 (.inr ⟨g, direct, rfl⟩), g, hg, rfl⟩

/-! ## When phases pass -/

/-- A step that waits has not ended. -/
theorem StatusTable.allTerminal_of_waiting {t : StatusTable} {n : Name} (known : t.knows n = true)
    (waits : t.status n = .waiting) : t.allTerminal = false := by
  have mem := Table.mem_of_find? (get?_eq_waiting_iff.2 ⟨known, waits⟩)
  rw [allTerminal, List.all_eq_false]
  exact ⟨_, mem, fun ended => by cases ended⟩

/-- A phase **has passed**: the start of a step when the step has left its waiting, and its finish
when it has ended. -/
def Moment.Passed (m : Moment) : Phase → Prop
  | .start n => m.status n ≠ .waiting
  | .finish n => (m.status n).isTerminal = true

/-- A moment is **smooth** when no step has failed and none was skipped. -/
structure Smooth (m : Moment) (h : History) : Prop where
  status : ∀ n, m.status n ≠ .failed
  verdict : ∀ n v, h.verdict n = some v → v = .run

section Step

variable {f : Flow} {workers : Nat} {asked : Bool} {m : Moment} {h : History} {x : Choice}
  (con : f.Consistent) (s : Sound f workers asked m h) (smooth : Smooth m h)

include con s smooth

/-- The verdict of a smooth move is to run, unless the run was stopped. -/
private theorem Smooth.verdict_next (unstopped : m.run.stopped = false) {n : Name} {v : Verdict}
    (hv : m.verdict? n = some v) : v = .run := by
  -- a step is skipped only behind a failure
  have noSkip : ∀ k, m.verdict? k ≠ some .skip := by
    intro k hk
    rcases s.orderly.cause_of_commit_skip (Moment.commit?_of_skip hk) with stop | ⟨d, -, -, failed⟩
    · rw [unstopped] at stop
      cases stop
    · exact smooth.status d.dst failed
  cases v with
  | run => rfl
  | skip => exact absurd hv (noSkip n)
  | claim =>
    obtain ⟨g, -, hg⟩ := (s.orderly.verdict?_eq_claim_iff con).1 hv
    exact absurd hg (noSkip g)

/-- Every verdict is to run up to a move that does not stop the run. -/
private theorem Smooth.verdict_cons (unstopped : m.run.stopped = false) (n : Name) (v : Verdict)
    (hv : History.verdict (m :: h) n = some v) : v = .run := by
  rcases (s.recorded.verdict_cons_eq_some_iff s.orderly con).1 hv with now | before
  · exact smooth.verdict_next con s unstopped now
  · exact smooth.verdict n v before

/-- A group does not fail in a smooth move: a child of it would have failed before. -/
private theorem Smooth.group_succeeds (unstopped : m.run.stopped = false) {g : Name} {code : Int}
    (isGroup : f.isGroup g = true) (active : m.status g = .inProgress)
    (ended : m.ended? = some (g, code)) : (m.next x).status g ≠ .failed := by
  intro failed
  have s' := s.next con x
  have change := s.orderly.change_next x
  rcases s'.judged.failed g isGroup failed with skipped | ⟨c, child, broken⟩
  · rcases skipped with hg | hg <;> cases smooth.verdict_cons con s unstopped g _ hg
  · have apart : c ≠ g := by
      rintro rfl
      rw [s.orderly.nested c (.of_groupOf? child)] at active
      cases active
    -- the child neither started nor ended in this move
    have uncommitted : m.verdict? c = none := by
      cases hv : m.verdict? c with
      | none => rfl
      | some v =>
        rw [s.orderly.active_of_verdict? con change hv] at broken
        cases broken
    have unended : ∀ code', m.ended? ≠ some (c, code') := by
      intro code' h
      rw [ended, Option.some.injEq, Prod.mk.injEq] at h
      exact apart h.1.symm
    rw [s.orderly.status_stays con change uncommitted unended] at broken
    exact smooth.status c broken

/-- A leaf does not fail in a smooth move: it ends with the code that its executor has returned. -/
private theorem Smooth.leaf_succeeds (unstopped : (m.next x).run.stopped = false)
    (unstopped' : m.run.stopped = false)
    (zero : ∀ k code, (m.next x).run.returned k = some code → code = 0) {n : Name} {code : Int}
    (isLeaf : f.isLeaf n = true) (ended : m.ended? = some (n, code))
    (now : (m.next x).status n = .ofExitCode code) : (m.next x).status n ≠ .failed := by
  intro failed
  have s' := s.next con x
  have run : History.verdict (m :: h) n = some .run := by
    cases hv : History.verdict (m :: h) n with
    | none =>
      rw [s'.recorded.verdict_eq_none] at hv
      rw [hv] at failed
      cases failed
    | some v => rw [smooth.verdict_cons con s unstopped' n v hv]
  have mem : (n, code) ∈ History.ends (m :: h) := by
    rw [History.ends_cons, ended]
    exact List.mem_append_left _ (by simp)
  have returned := s'.returned_of_end unstopped isLeaf run mem
  rw [now, Status.ofExitCode_eq_failed] at failed
  exact failed (zero n code returned)

/-- **Every move keeps a moment smooth** while the run is not stopped and executors return zero. -/
theorem Smooth.next (unstopped : (m.next x).run.stopped = false)
    (zero : ∀ k code, (m.next x).run.returned k = some code → code = 0) :
    Smooth (m.next x) (m :: h) := by
  have unstopped' := (s.orderly.shift_next x).unstopped_before unstopped
  refine ⟨fun n failed => ?_, smooth.verdict_cons con s unstopped'⟩
  rcases s.orderly.passes con (s.orderly.change_next x) n with
    ⟨v, -, -, now⟩ | ⟨code, ended, -, active, now⟩ | ⟨-, -, same⟩
  · rw [now] at failed
    cases failed
  · cases isGroup : f.isGroup n with
    | true => exact smooth.group_succeeds con s unstopped' isGroup active ended failed
    | false =>
      have known := s.orderly.contains_of_status (n := n) (by rw [active]; decide)
      have isLeaf := Flow.isLeaf_of_not_isGroup known isGroup
      exact smooth.leaf_succeeds con s unstopped unstopped' zero isLeaf ended now failed
  · rw [same] at failed
    exact smooth.status n failed

/-- **A phase passes only after those that must come before it**, while nothing is skipped. -/
theorem Smooth.passed_before (unstopped : m.run.stopped = false) {v u : Phase}
    (now : (m.next x).Passed v) (new : ¬ m.Passed v) (hu : u ∈ f.precedence.before v) :
    m.Passed u := by
  have change := s.orderly.change_next x
  cases v with
  | start n =>
    have waited : m.status n = .waiting := by simpa [Moment.Passed] using new
    rcases s.orderly.passes con change n with ⟨v, hv, -, -⟩ | ⟨_, -, -, active, -⟩ | ⟨-, -, same⟩
    · -- the step is committed, so its group runs and what it waits for has ended
      have run := smooth.verdict_next con s unstopped hv
      subst run
      have commit := Moment.commit?_of_run hv
      rcases con.mem_before_start.1 hu with ⟨d, hd, rfl, rfl⟩ | ⟨g, hg, rfl⟩
      · exact s.orderly.ended_of_commit? commit (Flow.mem_edgesFrom.2 ⟨hd, rfl⟩)
      · obtain ⟨-, -, t, found, directive⟩ := s.orderly.of_commit? commit
        rw [Flow.groupOf?_of_step? found] at hg
        have released := Coordinator.released_of_directive (by rw [directive]; decide) hg
        intro waits
        rw [Moment.status, released] at waits
        cases waits
    · rw [waited] at active
      cases active
    · rw [Moment.Passed, same] at now
      exact absurd waited now
  | finish n =>
    rcases s.orderly.passes con change n with ⟨_, -, -, after⟩ | ⟨code, ended, -, active, -⟩ |
      ⟨-, -, same⟩
    · rw [Moment.Passed, after] at now
      cases now
    · rcases con.mem_before_finish.1 hu with rfl | ⟨c, hc, rfl⟩
      · rw [Moment.Passed, active]
        decide
      · -- a group ends when it is closed, and its children have ended by then
        have closing := s.orderly.closing?_of_ended? change (con.isGroup_of_groupOf? hc) ended
        exact s.counted.terminal_of_closing? con (by rw [closing]; exact fun h => by cases h) hc
    · rw [Moment.Passed, same] at now
      exact absurd now new

end Step

/-! ## Whole runs -/

/-- What an executor has returned stays. -/
theorem Sound.returned_next {f : Flow} {workers : Nat} {asked : Bool} {m : Moment} {h : History}
    (s : Sound f workers asked m h) (x : Choice) {n : Name} {code : Int}
    (returned : m.run.returned n = some code) : (m.next x).run.returned n = some code := by
  unfold Coordinator.returned at returned ⊢
  split at returned
  · rename_i o ho
    have stays := (s.posted.post_next s.recorded s.orderly x n).ended (s.posted.fits n) ho
    have now : (m.next x).run.executions.get? n = some (.ended o) := stays
    rw [now]
    exact returned
  · cases returned

section Run

variable {f : Flow} (con : f.Consistent) (workers : Nat) (registry : Registry) (xs : List Choice)
  (unstopped : ((Moment.initial f workers registry).after xs).run.stopped = false)
  (zero : ∀ k code, ((Moment.initial f workers registry).after xs).run.returned k = some code →
    code = 0)

include con unstopped zero

/-- A run that is not stopped and whose executors return zero is smooth, and no stuck phase passes
in it. -/
theorem smooth_and_not_passed {blocked : Set Phase} (stuck : f.precedence.Stuck blocked) :
    Smooth ((Moment.initial f workers registry).after xs)
        ((Moment.initial f workers registry).past xs) ∧
      ∀ v ∈ blocked, ¬ ((Moment.initial f workers registry).after xs).Passed v := by
  induction xs with
  | nil =>
    refine ⟨⟨fun n => ?_, fun n v hv => by cases hv⟩, fun v _ passed => ?_⟩
    · rw [Moment.after_nil, Moment.status_initial]
      decide
    · cases v with
      | start n => exact passed (Moment.status_initial f workers registry n)
      | finish n =>
        rw [Moment.after_nil, Moment.Passed, Moment.status_initial] at passed
        cases passed
  | cons x earlier ih =>
    have s := Sound.after con workers registry earlier
    have unstopped' := (s.orderly.shift_next x).unstopped_before unstopped
    obtain ⟨smooth, behind⟩ := ih unstopped' fun k code returned =>
      zero k code (s.returned_next x returned)
    refine ⟨smooth.next con s unstopped zero, fun v hv passed => ?_⟩
    -- a stuck phase that passes now would be behind another one that has passed before
    obtain ⟨u, hu, inside⟩ := stuck.after v hv
    exact behind u inside (smooth.passed_before con s unstopped' passed (behind v hv) hu)

end Run

/-- **Flows that are refused for a cycle would stall.** If declarations fit but are refused because
their phases cannot be ranked, the flow that they describe has a step that never leaves its waiting,
whatever coordinator is created for it and however it is run, as long as the run is not stopped and
every executor that returns returns zero; so the steps of the flow never have all ended. -/
theorem Flow.stalls_of_cycle {ds : List Declaration} (refused : declare ds = .error .cycle) :
    ∃ n ∈ (assemble ds).names,
      ∀ (workers : Nat) (hasRuntime : Bool) (registry : Registry) (c : Coordinator),
        Coordinator.create (assemble ds) workers hasRuntime registry = .ok c →
        ∀ xs : List Choice, ((Moment.mk [] c).after xs).run.stopped = false →
          (∀ k code, ((Moment.mk [] c).after xs).run.returned k = some code → code = 0) →
          ((Moment.mk [] c).after xs).status n = .waiting ∧
            ((Moment.mk [] c).after xs).run.statuses.allTerminal = false := by
  obtain ⟨fit, failed⟩ := declare_eq_cycle_iff.1 refused
  have con := consistent_assemble fit
  obtain ⟨_, stuck⟩ := Precedence.exists_stuck_of_not_schedulable
    (fun v hv u hu => con.mem_phases_of_before hv hu) failed
  obtain ⟨blocked, stuck, n, hn⟩ := con.exists_stuck_start stuck
  have known : (assemble ds).contains n = true := by
    obtain ⟨k, hk, same | same⟩ := mem_phases.1 (stuck.mem_phases _ hn)
    · cases same
      exact hk
    · cases same
  refine ⟨n, contains_iff_mem_names.1 known, ?_⟩
  intro workers hasRuntime registry c created xs unstopped zero
  obtain ⟨-, rfl⟩ := Coordinator.eq_initial_of_create created
  have behind := (smooth_and_not_passed con workers registry xs unstopped zero stuck).2 _ hn
  have waits : ((Moment.initial (assemble ds) workers registry).after xs).status n = .waiting := by
    simpa [Moment.Passed] using behind
  have s := Sound.after con workers registry xs
  exact ⟨waits, StatusTable.allTerminal_of_waiting ((s.orderly.knows n).trans known) waits⟩

/-- Two leaves that wait for each other, and a third one. -/
def Declaration.circular : List Declaration :=
  [.leaf "a" {}, .leaf "b" {}, .leaf "c" {}, .wait { src := "a", dst := "b" },
    .wait { src := "b", dst := "a" }]

/-- The moment at which the third leaf has been run. -/
def Moment.circular : Moment :=
  (Moment.mk [] (.initial (Flow.assemble Declaration.circular) 1)).after
    (Choice.plays "c" (.exit 0) ++ [.turn (.worker "c") {}, .request .start])

/-- The third leaf has run and returned zero, and of the two others one waits all the same. -/
theorem Flow.stalls_circular :
    (declare Declaration.circular = .error .cycle ∧
        Coordinator.create (assemble Declaration.circular) 1 =
          .ok (.initial (assemble Declaration.circular) 1) ∧
        Moment.circular.run.stopped = false ∧
        ∀ k code, Moment.circular.run.returned k = some code → code = 0) ∧
      Moment.circular.run.returned "c" = some 0 ∧
      ∃ n ∈ (assemble Declaration.circular).names, Moment.circular.status n = .waiting ∧
        Moment.circular.run.statuses.allTerminal = false := by
  have flow : assemble Declaration.circular =
      { steps := [⟨"a", none, .leaf {}⟩, ⟨"b", none, .leaf {}⟩, ⟨"c", none, .leaf {}⟩]
        dependencies := [⟨"a", "b", false⟩, ⟨"b", "a", false⟩] } := by
    unfold assemble
    -- merge sort does not reduce, but what it sorts here is sorted already
    rw [List.mergeSort_of_pairwise (by decide)]
    decide +kernel
  have refused : declare Declaration.circular = .error .cycle := by
    unfold declare
    rw [flow]
    decide +kernel
  have unstopped : Moment.circular.run.stopped = false := by
    rw [Moment.circular, flow]
    decide +kernel
  have executions : Moment.circular.run.executions.entries = [("c", .ended (.exit 0))] := by
    rw [Moment.circular, flow]
    decide +kernel
  have zero : ∀ k code, Moment.circular.run.returned k = some code → code = 0 := by
    intro k code returned
    unfold Coordinator.returned at returned
    split at returned
    · rename_i o ho
      have mem := Table.mem_of_find? ho
      rw [executions, List.mem_singleton] at mem
      cases mem
      cases returned
      rfl
    · cases returned
  have back : Moment.circular.run.returned "c" = some 0 := by
    rw [Coordinator.returned, Table.get?, executions]
    rfl
  obtain ⟨n, hn, stalls⟩ := stalls_of_cycle refused
  exact ⟨⟨refused, rfl, unstopped, zero⟩, back, n, hn,
    stalls 1 true {} _ rfl _ unstopped zero⟩

end StepFlow
