import StepFlow.Proofs.Course.EventsInOrder
import StepFlow.Proofs.Invocation
import StepFlow.Proofs.Progress

/-! # What a stop does

A run can be stopped wherever it stands: before it was started, between two tasks, or by a listener
in the middle of a cascade, when a leaf has been committed and its worker has not been polled, when
a worker queues or has been handed a permit, when an executor has been spawned or has just ended,
when a group has been announced and its roots have not been evaluated. From each of these it comes
to the same end. What has ended stays as it is; every leaf that has not ended, and every group that
has not been committed, fails with exit code one; no leaf is invoked that was not announced before;
nothing is committed to run any more.

The reason is that an exit code is on its way only for as long as it takes to carry out the next
call. A worker that has taken the exit code of its executor hands it over at once, so a stop finds
no exit code on the agenda but those of leaves that were skipped, and after it workers put no other
there.

Main statement: `Setup.stopped_run`. -/

namespace StepFlow

open Coordinator

/-! ## Exit codes on their way -/

/-- A worker ends its leaf with `skippedCode`, or with the exit code of its executor in a run that
is not stopped, and then it does nothing else. -/
theorem Coordinator.WorkerTurn.of_complete {c d : Coordinator} {k n : Name} {calls : List Call}
    {code : Int} (turn : WorkerTurn c k calls d) (mem : .complete n code ∈ calls) :
    code = skippedCode ∨ (c.stopped = false ∧ calls = [.complete n code]) := by
  cases turn with
  | rest | queue => cases mem
  | take | start => simp at mem
  | skip =>
    rcases List.mem_cons.1 mem with told | mem
    · cases told
    · cases List.mem_singleton.1 mem
      exact .inl rfl
  | leave | unqueue | decline | cut =>
    cases List.mem_singleton.1 mem
    exact .inl rfl
  | finish _ running =>
    cases List.mem_singleton.1 mem
    exact .inr ⟨running, rfl⟩

section Codes

variable {m : Moment} {x : Choice} {n : Name} {code : Int}

/-- The exit code of an executor comes onto the agenda alone. -/
private theorem of_complete_choose {c : Coordinator}
    (mem : .complete n code ∈ (c.choose x).agenda) :
    code = skippedCode ∨ (c.stopped = false ∧ (c.choose x).agenda = [.complete n code]) := by
  rcases of_mem_choose mem with requested | ⟨k, turn⟩ | ⟨k, burst, agenda⟩
  · cases requested
  · exact turn.of_complete mem
  · rw [agenda] at mem
    simp [burstCalls] at mem

/-- **Where an exit code on the agenda comes from**: it is `skippedCode`, it stood there behind
another call, or it is that of an executor and has come onto the agenda just now. -/
theorem Moment.of_complete_next (mem : .complete n code ∈ (m.next x).agenda) :
    code = skippedCode ∨ .complete n code ∈ m.agenda.tail ∨
      (m.agenda = [] ∧ m.run.stopped = false ∧ (m.next x).agenda = [.complete n code]) := by
  obtain ⟨agenda, c⟩ := m
  cases agenda with
  | nil =>
    rcases of_complete_choose mem with skipped | ⟨running, alone⟩
    · exact .inl skipped
    · exact .inr (.inr ⟨rfl, running, alone⟩)
  | cons call rest =>
    rcases List.mem_append.1 mem with new | old
    · exact .inl (makes_of_mem_perform new).of_complete
    · exact .inr (.inl old)

/-- An exit code that stands behind another call is that of a leaf that was skipped. -/
theorem Setup.of_complete_tail (s : Setup) (xs : List Choice)
    (mem : .complete n code ∈ (s.after xs).agenda.tail) : code = skippedCode := by
  induction xs with
  | nil => cases mem
  | cons x earlier ih =>
    rw [after_cons] at mem
    rcases Moment.of_complete_next (List.mem_of_mem_tail mem) with skipped | behind | ⟨-, -, alone⟩
    · exact skipped
    · exact ih behind
    · -- what has come alone stands behind nothing
      rw [alone] at mem
      cases mem

end Codes

/-! ## Moves of a stopped run -/

/-- An execution is never spawned after a stop. -/
theorem Post.Step.unexecuted {order : Option Bool} {p q : Post} (h : Step true order p q)
    (none : p.2 = none) : q.2 = Option.none := by
  cases h with
  | launch e running => cases running
  | cut e => rw [show e = Option.none from none]; rfl
  | stay | dispatch | skip | leave | queue | grant | start => exact none
  | finish | begin | resume | goOn | done | drop => cases none

/-- Nothing is committed to run after a stop. -/
theorem Orderly.commit?_ne_run {f : Flow} {m : Moment} (o : Orderly f m)
    (stopped : m.run.stopped = true) (n : Name) : m.commit? ≠ some (n, .run) := by
  intro commit
  obtain ⟨-, -, t, -, run⟩ := o.of_commit? commit
  rw [(of_directive_eq_run run).1] at stopped
  cases stopped

/-- The call that stops a run touches no execution. -/
theorem Moment.executions_of_stop {m : Moment} {rest : List Call} (x : Choice)
    (agenda : m.agenda = .stop :: rest) : (m.next x).run.executions = m.run.executions := by
  obtain ⟨_, c⟩ := m
  cases agenda
  simp only [Moment.next, perform, stop]
  split <;> rfl

namespace Setup

variable (s : Setup) {xs : List Choice} {x : Choice} {n : Name}

/-- A run that is stopped stays so. -/
theorem stopped_stays (stopped : (s.after xs).run.stopped = true) (ys : List Choice) :
    (s.after (ys ++ xs)).run.stopped = true := by
  induction ys with
  | nil => exact stopped
  | cons y ys ih => exact ((s.sound (ys ++ xs)).orderly.shift_next y).stopped_stays ih

/-- **What every move of a stopped run keeps holds from the stop on.** -/
theorem stopped_induction {P : Moment → History → Prop}
    (stopped : (s.after xs).run.stopped = true) (now : P (s.after xs) (s.past xs))
    (next : ∀ x zs, (s.after zs).run.stopped = true → P (s.after zs) (s.past zs) →
      P (s.after (x :: zs)) (s.past (x :: zs))) (ys : List Choice) :
    (s.after (ys ++ xs)).run.stopped = true ∧ P (s.after (ys ++ xs)) (s.past (ys ++ xs)) := by
  refine ⟨s.stopped_stays stopped ys, ?_⟩
  induction ys with
  | nil => exact now
  | cons y ys ih => exact next y _ (s.stopped_stays stopped ys) ih

section Stopped

variable (stopped : (s.after xs).run.stopped = true)

include stopped

/-- What has ended when the run is stopped stays as it is. -/
theorem status_of_stopped (ended : ((s.after xs).status n).isTerminal = true) (ys : List Choice) :
    (s.after (ys ++ xs)).status n = (s.after xs).status n := by
  refine (s.stopped_induction (P := fun m _ => m.status n = (s.after xs).status n) stopped rfl
    (fun x zs _ same => ?_) ys).2
  have o := (s.sound zs).orderly
  exact (o.terminal_stays s.wellFormed (o.change_next x) (by rw [same, ended])).trans same

/-- Whatever was committed to run was so when the run was stopped. -/
theorem committed_of_stopped (ys : List Choice)
    (run : History.Committed (s.past (ys ++ xs)) n .run) :
    History.Committed (s.past xs) n .run := by
  refine (s.stopped_induction
    (P := fun _ h => h.Committed n .run → History.Committed (s.past xs) n .run) stopped id
    (fun x zs stopped old run => ?_) ys).2 run
  obtain ⟨k, mem, commit⟩ := run
  rcases List.mem_cons.1 mem with rfl | before
  · -- the move that was left behind last commits nothing to run
    exact absurd commit ((s.sound zs).orderly.commit?_ne_run stopped n)
  · exact old ⟨k, before, commit⟩

/-- What has no execution when the run is stopped gets none. -/
theorem unexecuted_of_stopped (none : (s.after xs).run.executions.get? n = none)
    (ys : List Choice) : (s.after (ys ++ xs)).run.executions.get? n = Option.none := by
  refine (s.stopped_induction (P := fun m _ => m.run.executions.get? n = Option.none) stopped none
    (fun x zs stopped none => ?_) ys).2
  have sound := s.sound zs
  have step := sound.posted.post_next sound.recorded sound.orderly x n
  rw [stopped] at step
  exact step.unexecuted none

/-- A leaf that has not ended when the run is stopped ends with `skippedCode`, if no exit code of an
executor is on its way. -/
theorem code_of_stopped
    (codes : ∀ n code, .complete n code ∈ (s.after xs).agenda → code = skippedCode)
    (isLeaf : s.flow.isLeaf n = true) (active : ((s.after xs).status n).isTerminal = false)
    (ys : List Choice) {code : Int} (ended : (n, code) ∈ History.ends (s.past (ys ++ xs))) :
    code = skippedCode := by
  -- from move to move no exit code of an executor comes onto the agenda, and so none is recorded
  refine (s.stopped_induction (P := fun m h =>
    (∀ n code, .complete n code ∈ m.agenda → code = skippedCode) ∧
      ∀ code, (n, code) ∈ h.ends → code = skippedCode) stopped ⟨codes, fun code ended => ?_⟩
    (fun x zs stopped old => ⟨fun k code mem => ?_, fun code ended => ?_⟩) ys).2.2 code ended
  · rw [(s.sound xs).recorded.status_of_end n code ended, Status.isTerminal_ofExitCode] at active
    cases active
  · rw [after_cons] at mem
    rcases Moment.of_complete_next mem with skipped | behind | ⟨-, running, -⟩
    · exact skipped
    · exact old.1 k code (List.mem_of_mem_tail behind)
    · rw [stopped] at running
      cases running
  · rw [past_cons, History.ends_cons, List.mem_append] at ended
    rcases ended with now | before
    · -- a leaf ends when it is completed
      have o := (s.sound zs).orderly
      have now : (s.after zs).ended? = some (n, code) := by simpa using now
      obtain ⟨call, rest, agenda, rfl | ⟨rfl, -⟩, -⟩ := (o.change_next x).finish_of_ended? now
      · exact old.1 n code (by rw [agenda]; exact List.mem_cons_self)
      · have isGroup := (o.closes n (by rw [agenda]; exact List.mem_cons_self)).1
        exact absurd isLeaf (Flow.not_isLeaf_of_isGroup isGroup)
    · exact old.2 code before

/-- Once a stopped run is idle it is over: every step has ended and so has every execution. -/
theorem over_of_stopped (idle : (s.after xs).isIdle = true) :
    (∀ n ∈ s.flow.names, ((s.after xs).status n).isTerminal = true) ∧
      ∀ n e, (s.after xs).run.executions.get? n = some e → e.isOver = true := by
  have sound := s.sound xs
  -- a stop was requested, so the run was asked for
  have asked : s.asked xs = true := by
    by_contra unasked
    rw [Bool.not_eq_true] at unasked
    rw [(sound.watched.unasked unasked).1] at stopped
    cases stopped
  have quiet := fun n e => @Sound.isOver_of_stopped _ _ _ _ _ sound idle stopped n e
  exact ⟨fun n hn => sound.terminal_of_isIdle idle quiet s.wellFormed s.coordinator_eq.1 asked
    (Flow.contains_iff_mem_names.2 hn), quiet⟩

end Stopped

/-! ## The moment of a stop -/

section Stopping

variable (running : (s.after xs).run.stopped = false)

include running

/-- In a run that is not stopped the start of every leaf with an execution was announced. -/
theorem announced_of_execution (executed : (s.after xs).run.executions.get? n ≠ none) :
    .started n ∈ tidings (s.after xs) (s.past xs) := by
  have sound := s.sound xs
  have traced := s.traced xs
  have isLeaf := sound.posted.isLeaf_of_execution executed
  have admitted : History.Admitted (s.after xs :: s.past xs) n := by
    rcases sound.posted.stage_of_execution executed with runs | done
    · exact traced.admitted n runs
    · -- its worker is done, it was not to be skipped, and nothing is cut off without a stop
      rcases traced.done n done with skip | admitted | cut
      · rw [sound.posted.executed n executed] at skip
        cases skip
      · exact admitted
      · rw [(traced.cutOff n cut).1] at running
        cases running
  have announced : Announced s.flow (s.after xs) (s.past xs) n :=
    (announced_of_other fun isGroup => Flow.not_isLeaf_of_isGroup isGroup isLeaf).2 (.inl admitted)
  have told := (s.tale n xs).told
  rw [if_pos announced] at told
  have mine : Event.started n ∈ (tidings (s.after xs) (s.past xs)).filter (·.step = n) := by
    rw [told]
    simp
  exact (List.mem_filter.1 mine).1

variable (stopped : (s.after (x :: xs)).run.stopped = true)

include stopped

/-- A run is stopped by a request. -/
theorem exists_agenda_of_stop : ∃ rest, (s.after xs).agenda = .stop :: rest := by
  rw [after_cons] at stopped
  rcases ((s.sound xs).orderly.shift_next x).stopped with same | ⟨-, request⟩
  · rw [stopped, running] at same
    cases same
  · exact request

/-- When a run is stopped no exit code of an executor is on its way. -/
theorem codes_of_stop (n : Name) (code : Int)
    (mem : .complete n code ∈ (s.after (x :: xs)).agenda) : code = skippedCode := by
  obtain ⟨rest, agenda⟩ := s.exists_agenda_of_stop running stopped
  rw [after_cons] at mem
  rcases Moment.of_complete_next mem with skipped | behind | ⟨empty, -⟩
  · exact skipped
  · exact s.of_complete_tail xs behind
  · rw [agenda] at empty
    cases empty

/-- When a run is stopped the start of every leaf with an execution has been told. -/
theorem told_of_stop (executed : (s.after (x :: xs)).run.executions.get? n ≠ none) :
    .started n ∈ History.told (s.past (x :: xs)) := by
  obtain ⟨rest, agenda⟩ := s.exists_agenda_of_stop running stopped
  rw [after_cons, Moment.executions_of_stop x agenda] at executed
  rw [past_cons, History.told_cons]
  refine List.mem_append_right _ ?_
  rcases List.mem_append.1 (s.announced_of_execution running executed) with told | pending
  · exact List.mem_reverse.1 told
  · -- a start that stands behind the request of the stop is that of a group that was claimed
    have pending := mem_toTell.1 pending
    rw [agenda] at pending
    rcases List.mem_cons.1 pending with first | behind
    · cases first
    · obtain ⟨pre, post, split⟩ := List.append_of_mem behind
      rcases (s.tale n xs).heralded (.stop :: pre) post (by rw [agenda, split]; rfl) with
        none | ⟨claim, -⟩
      · cases none
      · rw [(s.sound xs).posted.executed n executed] at claim
        cases claim

end Stopping

end Setup

/-! ## Stopped runs -/

/-- A stop **halts** the leaves that have not ended and the groups that wait. -/
def Moment.Halts (m : Moment) (f : Flow) (n : Name) : Prop :=
  (f.isLeaf n = true ∧ (m.status n).isTerminal = false) ∨
    (f.isGroup n = true ∧ m.status n = .waiting)

/-- A step that a stop halts ends with exit code one. -/
theorem Setup.code_of_halts (s : Setup) {xs : List Choice} {x : Choice} {n : Name}
    (running : (s.after xs).run.stopped = false) (stopped : (s.after (x :: xs)).run.stopped = true)
    (halts : (s.after (x :: xs)).Halts s.flow n) (ys : List Choice) {code : Int}
    (ended : (n, code) ∈ History.ends (s.past (ys ++ x :: xs))) : code = 1 := by
  rcases halts with ⟨isLeaf, active⟩ | ⟨-, waits⟩
  · exact s.code_of_stopped stopped (s.codes_of_stop running stopped) isLeaf active ys ended
  · -- a group that waits is not committed to run any more, so it is spared
    have sound := s.sound (ys ++ x :: xs)
    refine (sound.spared ?_).code code ended
    by_cases still : (s.after (ys ++ x :: xs)).status n = .waiting
    · exact .inr still
    · refine .inl ((sound.recorded.skipped_iff still).2 fun run => ?_)
      have before := s.committed_of_stopped stopped ys (sound.recorded.verdict_eq_run_iff.1 run)
      have recorded := (s.sound (x :: xs)).recorded
      exact recorded.status_ne_waiting (recorded.verdict_eq_run_iff.2 before) waits

/-- **What a stop does.** From the move on that stops a run, whatever has ended keeps its status;
every end of a step that the stop halts has exit code one, and such a step has failed with it if it
has ended; the executor of a leaf is invoked only if its start was told before; and no step is
committed to run that was not so before. When the run is idle then every step has ended and every
execution is over. -/
theorem Setup.stopped_run (s : Setup) (xs : List Choice) (x : Choice)
    (running : (s.after xs).run.stopped = false) (stopped : (s.after (x :: xs)).run.stopped = true)
    (ys : List Choice) :
    (∀ n, ((s.after (x :: xs)).status n).isTerminal = true →
      (s.after (ys ++ x :: xs)).status n = (s.after (x :: xs)).status n) ∧
    (∀ n, (s.after (x :: xs)).Halts s.flow n →
      (∀ code, (n, code) ∈ History.ends (s.past (ys ++ x :: xs)) → code = 1) ∧
        (((s.after (ys ++ x :: xs)).status n).isTerminal = true →
          (s.after (ys ++ x :: xs)).status n = .failed ∧
            (n, 1) ∈ History.ends (s.past (ys ++ x :: xs)))) ∧
    (∀ n ∈ (s.after (ys ++ x :: xs)).run.invoked, .started n ∈ History.told (s.past (x :: xs))) ∧
    (∀ n, History.Committed (s.past (ys ++ x :: xs)) n .run →
      History.Committed (s.past (x :: xs)) n .run) ∧
    ((s.after (ys ++ x :: xs)).isIdle = true →
      (∀ n ∈ s.flow.names, ((s.after (ys ++ x :: xs)).status n).isTerminal = true) ∧
        ∀ n e, (s.after (ys ++ x :: xs)).run.executions.get? n = some e → e.isOver = true) := by
  have sound := s.sound (ys ++ x :: xs)
  refine ⟨fun n ended => s.status_of_stopped stopped ended ys, fun n halts => ?_,
    fun n invoked => ?_, fun n => s.committed_of_stopped stopped ys, fun idle => ?_⟩
  · have codes : ∀ code, (n, code) ∈ History.ends (s.past (ys ++ x :: xs)) → code = 1 :=
      fun code => s.code_of_halts running stopped halts ys
    refine ⟨codes, fun ended => ?_⟩
    obtain ⟨code, mem, status⟩ := sound.recorded.exists_end ended
    have one := codes code mem
    subst one
    exact ⟨status, mem⟩
  · refine s.told_of_stop running stopped fun none => ?_
    -- an executor that was invoked has an execution
    obtain ⟨e, he, -⟩ := sound.handed.invoked n invoked
    rw [s.unexecuted_of_stopped stopped none ys] at he
    cases he
  · have still := (s.stopped_induction (P := fun _ _ => True) stopped trivial
      (fun _ _ _ _ => trivial) ys).1
    exact s.over_of_stopped still idle

/-- A run of the small setup in which a stop is requested while the executor of the first leaf
waits. -/
def Setup.waitingRun : List Choice :=
  [.request .stop] ++ List.replicate 2 (.turn (.executor "a") { outcome := none }) ++
    List.replicate 5 (.turn (.worker "a") {}) ++ [.request .start]

/-- The choices that a run goes on with after the first leaf was stopped. -/
def Setup.windingDown : List Choice :=
  .turn (.executor "a") {} :: List.replicate 19 (.turn (.worker "a") {})

/-- When the small setup is stopped while its first leaf runs, the leaf fails with exit code one and
so does the group that waits. -/
theorem Setup.stopped_run_sample :
    ((sample.after waitingRun).run.stopped = false ∧
        (sample.after (.turn (.worker "a") {} :: waitingRun)).run.stopped = true) ∧
      ("a", 1) ∈ History.ends
        (sample.past (windingDown ++ .turn (.worker "a") {} :: waitingRun)) ∧
      ("g", 1) ∈ History.ends
        (sample.past (windingDown ++ .turn (.worker "a") {} :: waitingRun)) := by
  have running : (sample.after waitingRun).run.stopped = false := by decide +kernel
  have stopped : (sample.after (.turn (.worker "a") {} :: waitingRun)).run.stopped = true := by
    decide +kernel
  obtain ⟨-, halted, -, -, idle⟩ :=
    sample.stopped_run waitingRun (.turn (.worker "a") {}) running stopped windingDown
  have ended := (idle (by decide +kernel)).1
  refine ⟨⟨running, stopped⟩, ?_, ?_⟩
  · exact ((halted "a" (.inl ⟨rfl, by decide +kernel⟩)).2 (ended "a" (by decide))).2
  · exact ((halted "g" (.inr ⟨rfl, by decide +kernel⟩)).2 (ended "g" (by decide))).2

end StepFlow
