import StepFlow.Proofs.Course.Cascade
import StepFlow.Proofs.Events
import StepFlow.Proofs.Stop

/-! # Requests that come again

A run does not keep in mind that it was started: every start, and the first stop as well, evaluates
the roots of the flow. Still a second start does nothing at all, wherever the run stands by then. A
root has no group and waits for nothing, so once a start or a stop has returned every root has left
its waiting, for good, and to evaluate it is to do nothing.

What is left of a stop is then that the run is stopped and the workers that wait are woken, and when
every step has ended no worker waits.

Main statement: `Setup.requests_repeated`. -/

namespace StepFlow

namespace Coordinator

variable {c : Coordinator}

/-- The state that a stop leaves of a run whose roots have left their waiting: the workers that heed
the stop are woken. -/
def halted (c : Coordinator) : Coordinator :=
  { c with stopped := true, ready := c.ready ++ c.sleepers }

/-- A step that has left its waiting is not committed. -/
theorem evaluate_of_left {n : Name} (left : c.status n ≠ .waiting) : c.evaluate n = ([], c) := by
  rcases c.evaluate_cases n with idle | ⟨s, found, -, waits, -⟩
  · exact idle
  · rw [Flow.step?_name found] at waits
    exact absurd waits left

theorem stop_of_stopped (stopped : c.stopped = true) : c.stop = ([], c) := by
  rw [stop, if_pos stopped]

theorem stop_of_running (running : c.stopped = false) : c.stop = (c.startCalls, c.halted) := by
  rw [stop, if_neg (by rw [running]; decide), halted]

theorem stopped_stop (c : Coordinator) : c.stop.2.stopped = true := by
  unfold stop
  split
  · rename_i stopped
    exact stopped
  · rfl

/-- A state is **launched** when every root of its flow has left its waiting. -/
def Launched (c : Coordinator) : Prop := ∀ s ∈ c.flow.roots, c.status s.name ≠ .waiting

namespace Launched

theorem halted (launched : c.Launched) : c.halted.Launched := launched

/-- The calls of a start do nothing. -/
theorem inert (launched : c.Launched) : ∀ call ∈ c.startCalls, c.perform call = ([], c) := by
  intro call mem
  obtain ⟨s, root, rfl⟩ := List.mem_map.1 mem
  exact evaluate_of_left (launched s root)

theorem request_start (launched : c.Launched) : c.request .start = c :=
  settle_of_inert launched.inert

theorem request_stop (launched : c.Launched) :
    c.request .stop = if c.stopped then c else c.halted := by
  rw [request, settle_cons, perform, List.append_nil]
  cases stopped : c.stopped with
  | true => rw [stop_of_stopped stopped, settle_nil, if_pos rfl]
  | false =>
    rw [stop_of_running stopped, if_neg (by decide)]
    exact settle_of_inert launched.halted.inert

/-- After a stop a second one does nothing. -/
theorem request_stop_stop (launched : c.Launched) :
    (c.request .stop).request .stop = c.request .stop := by
  rw [launched.request_stop]
  split
  · rename_i stopped
    rw [launched.request_stop, if_pos stopped]
  · exact launched.halted.request_stop

end Launched

/-- When every worker is done a stop wakes nobody. -/
theorem halted_of_done (done : ∀ n t, c.stages.get? n = some t → t = .done) :
    c.halted = { c with stopped := true } := by
  have none : c.sleepers = [] := by
    have heedless : c.flow.names.filter
        (fun n => ((c.stages.get? n).map Stage.heedsStop).getD false) = [] := by
      refine List.filter_eq_nil_iff.2 fun n _ heeds => ?_
      cases ht : c.stages.get? n with
      | none => rw [ht] at heeds; cases heeds
      | some t =>
        rw [ht, done n t ht] at heeds
        cases heeds
    rw [sleepers, heedless]
    rfl
  rw [halted, none, List.append_nil]

/-- When every worker is done a stop does not more than to stop the run. -/
theorem Launched.request_stop_of_done (launched : c.Launched)
    (done : ∀ n t, c.stages.get? n = some t → t = .done) :
    c.request .stop = { c with stopped := true } := by
  rw [launched.request_stop, halted_of_done done]
  split
  · rename_i stopped
    rw [← stopped]
  · rfl

end Coordinator

/-! ## Roots that have left their waiting -/

namespace Setup

variable (s : Setup) {xs : List Choice}

/-- What has left its waiting has left it for good. -/
theorem left_stays {n : Name} (left : (s.after xs).status n ≠ .waiting) (ys : List Choice) :
    (s.after (ys ++ xs)).status n ≠ .waiting := by
  induction ys with
  | nil => exact left
  | cons y ys ih =>
    have o := (s.sound (ys ++ xs)).orderly
    exact fun waits => ih (o.waiting_before s.wellFormed (o.change_next y) waits)

theorem roots_after (xs : List Choice) : (s.after xs).run.flow.roots = s.flow.roots := by
  rw [(s.sound xs).orderly.flow]

/-- Once a start or a stop has returned all roots have left their waiting, then and later. -/
theorem launched (asked : s.asked xs = true) (settled : (s.after xs).agenda = [])
    (ys : List Choice) : (s.after (ys ++ xs)).run.Launched := by
  intro t root
  rw [s.roots_after] at root
  refine s.left_stays (fun waits => ?_) ys
  obtain ⟨mem, free⟩ := List.mem_filter.1 root
  rw [Bool.and_eq_true, Option.isNone_iff_eq_none, List.isEmpty_iff] at free
  -- a root that waits is decided, but nothing that could be decided is left undecided
  refine Flow.directive_ne_noop_iff.2 ⟨waits, fun g group => ?_, fun d edge => ?_⟩
    ((s.sound xs).directive_of_settled settled asked (s.wellFormed.step?_of_mem mem))
  · rw [free.1] at group
    cases group
  · rw [free.2] at edge
    cases edge

/-- A run is stopped from the first stop on, whoever has requested it. -/
theorem stopped_of_past {k : Moment} {rest : List Call} (past : k ∈ s.past xs)
    (stop : k.agenda = .stop :: rest) : (s.after xs).run.stopped = true := by
  obtain ⟨x, later, earlier, rfl, rfl⟩ := Moment.mem_past_iff.1 past
  have performed : (s.after (x :: earlier)).run = (s.after earlier).run.stop.2 := by
    rw [after_cons, Moment.next, show (s.after earlier).agenda = _ from stop]
    rfl
  refine s.stopped_stays (?_ : (s.after (x :: earlier)).run.stopped = true) later
  rw [performed]
  exact Coordinator.stopped_stop _

/-- When every step has ended every worker is done. -/
theorem done_of_ended (ended : ∀ n ∈ s.flow.names, ((s.after xs).status n).isTerminal = true)
    {n : Name} {t : Stage} (ht : (s.after xs).run.stages.get? n = some t) : t = .done := by
  have sound := s.sound xs
  refine sound.orderly.done_of_isTerminal (ended n ?_) ht
  rw [← sound.orderly.flow]
  exact sound.staged_mem (by rw [ht]; rfl)

/-! ## Requests in a run -/

/-- The moments while the roots are evaluated that have left their waiting. -/
private theorem after_startCalls {c : Coordinator} (launched : c.Launched) {ys : List Choice}
    (few : ys.length ≤ c.startCalls.length) :
    (Moment.mk c.startCalls c).after ys = ⟨c.startCalls.drop ys.length, c⟩ := by
  have used := Moment.after_of_inert launched.inert [] few
  rw [List.append_nil, List.append_nil] at used
  exact used

/-- **Requests that come again do nothing.** Take a moment outside of all reactions at which a start
or a stop has returned.

- From then on to evaluate a root is to do nothing, whoever requests it.
- A start from outside evaluates the roots one by one, which leaves the state as it is.
- After a stop another stop leaves the state as it is.
- The first stop does not more than to stop the run and to wake the workers that heed it, and the
  evaluation of the roots in it leaves that state as it is.
- When every step has ended a stop does not more than to stop the run, and the answer to waiting for
  the end is there before and stays the same. -/
theorem requests_repeated (asked : s.asked xs = true) (settled : (s.after xs).agenda = []) :
    (∀ ys, ∀ t ∈ s.flow.roots, (s.after (ys ++ xs)).run.evaluate t.name =
      ([], (s.after (ys ++ xs)).run)) ∧
    ((∀ ys : List Choice, ys.length ≤ s.flow.roots.length →
        s.after (ys ++ .request .start :: xs) =
          ⟨(s.after xs).run.startCalls.drop ys.length, (s.after xs).run⟩) ∧
      (s.after xs).run.request .start = (s.after xs).run) ∧
    ((∀ k ∈ s.past xs, ∀ rest, k.agenda = .stop :: rest →
        (s.after xs).run.request .stop = (s.after xs).run) ∧
      ((s.after xs).run.request .stop).request .stop = (s.after xs).run.request .stop) ∧
    ((s.after xs).run.stopped = false →
      (∀ (y : Choice) (ys : List Choice), ys.length ≤ s.flow.roots.length →
        s.after (ys ++ y :: .request .stop :: xs) =
          ⟨(s.after xs).run.startCalls.drop ys.length, (s.after xs).run.halted⟩) ∧
      (s.after xs).run.request .stop = (s.after xs).run.halted) ∧
    ((∀ n ∈ s.flow.names, ((s.after xs).status n).isTerminal = true) →
      (s.after xs).run.request .stop = { (s.after xs).run with stopped := true } ∧
        (s.after xs).run.answer?.isSome = true ∧
        ((s.after xs).run.request .stop).answer? = (s.after xs).run.answer?) := by
  -- once the run was asked for no root is left to be decided, and all parts rest on this
  have launched := s.launched asked settled []
  rw [List.nil_append] at launched
  have roots : (s.after xs).run.startCalls.length = s.flow.roots.length := by
    rw [Coordinator.startCalls, List.length_map, s.roots_after]
  refine ⟨fun ys t root => ?_, ⟨fun ys few => ?_, launched.request_start⟩,
    ⟨fun k past rest stop => ?_, launched.request_stop_stop⟩,
    fun running => ⟨fun y ys few => ?_, ?_⟩, fun ended => ?_⟩
  · rw [← s.roots_after (ys ++ xs)] at root
    exact Coordinator.evaluate_of_left (s.launched asked settled ys t root)
  · rw [after, Moment.after_append, Moment.after_cons, Moment.next, ← after, settled]
    exact after_startCalls launched (roots ▸ few)
  · rw [launched.request_stop, if_pos (s.stopped_of_past past stop)]
  · have stop : (s.after xs).run.perform .stop =
        ((s.after xs).run.startCalls, (s.after xs).run.halted) :=
      Coordinator.stop_of_running running
    rw [after, Moment.after_append, Moment.after_cons, Moment.after_cons, ← after, Moment.next,
      Moment.next, settled]
    simp only [Coordinator.choose, stop, List.append_nil]
    exact after_startCalls launched.halted (roots ▸ few)
  · rw [launched.request_stop, running, if_neg (by decide)]
  · have finished := (s.sound xs).remaining_of_ended settled ended
    have halt := launched.request_stop_of_done fun _ _ => s.done_of_ended ended
    refine ⟨halt, ?_, by rw [halt]; rfl⟩
    rw [Coordinator.answer?, Coordinator.isFinished, finished]
    rfl

/-- A run of the small setup that has come to its end and is then stopped: a start does nothing, the
stop only stops the run and leaves the answer as it is, and another stop does nothing. -/
theorem requests_repeated_sample :
    (sample.asked (sampleRun (.exit 0) (.exit 3)) = true ∧
        (sample.after (sampleRun (.exit 0) (.exit 3))).agenda = []) ∧
      (sample.after (sampleRun (.exit 0) (.exit 3))).run.request .start =
        (sample.after (sampleRun (.exit 0) (.exit 3))).run ∧
      (sample.after (sampleRun (.exit 0) (.exit 3))).run.request .stop =
        { (sample.after (sampleRun (.exit 0) (.exit 3))).run with stopped := true } ∧
      ((sample.after (sampleRun (.exit 0) (.exit 3))).run.request .stop).answer? = some 1 ∧
      (sample.after ([.request .start, .request .start, .request .stop] ++
          sampleRun (.exit 0) (.exit 3))).run.request .stop =
        (sample.after ([.request .start, .request .start, .request .stop] ++
          sampleRun (.exit 0) (.exit 3))).run := by
  have asked : sample.asked (sampleRun (.exit 0) (.exit 3)) = true := by decide +kernel
  have settled : (sample.after (sampleRun (.exit 0) (.exit 3))).agenda = [] :=
    List.isEmpty_iff.1 (by decide +kernel)
  obtain ⟨-, ⟨-, start⟩, -, -, last⟩ := sample.requests_repeated asked settled
  obtain ⟨stop, -, answer⟩ := last (by decide +kernel)
  -- the stop itself and the evaluation of the only root take a move each
  have stopped : (sample.after ([.request .start, .request .start, .request .stop] ++
      sampleRun (.exit 0) (.exit 3))).agenda = [] := List.isEmpty_iff.1 (by decide +kernel)
  obtain ⟨-, -, ⟨again, -⟩, -⟩ := sample.requests_repeated (by decide +kernel) stopped
  refine ⟨⟨asked, settled⟩, start, stop, answer.trans (by decide +kernel),
    again _ (List.mem_cons_of_mem _ List.mem_cons_self) [] ?_⟩
  change (sample.after (.request .stop :: sampleRun (.exit 0) (.exit 3))).agenda = [.stop]
  rw [after_cons, Moment.next, settled]
  rfl

end Setup

end StepFlow
