import StepFlow.Proofs.Course.Calls
import StepFlow.Proofs.Course.Record

/-! # What a move shifts

A move can do only a few things to the tasks of a run, and `Shift` lists them with the state after
them and all that holds before: a leaf that is committed gets a worker, a ready task has its turn, a
start that was announced is launched, an execution ends or is released, the run is stopped. Every
other move keeps the tasks as they are. What `Change` is for the steps and groups, `Shift` is for
workers, executions, permits and the queue.

Main statement: `Orderly.shift_next`, that every move is one of these shifts. -/

namespace StepFlow

/-- The **order** that the next move gives for a leaf, if it commits the leaf. -/
def Moment.order? (m : Moment) (n : Name) : Option Bool :=
  if m.run.flow.isLeaf n then
    match m.verdict? n with
    | some .run => some false
    | some .skip => some true
    | _ => none
  else none

/-- Two states **agree on the tasks** if they have the same workers, executions, permits and
queues. -/
structure Coordinator.SameTasks (c d : Coordinator) : Prop where
  stopped : d.stopped = c.stopped
  ready : d.ready = c.ready
  permits : d.permits = c.permits
  waiters : d.waiters = c.waiters
  stages : d.stages = c.stages
  executions : d.executions = c.executions
  invoked : d.invoked = c.invoked

theorem Coordinator.SameTasks.refl (c : Coordinator) : SameTasks c c :=
  ⟨rfl, rfl, rfl, rfl, rfl, rfl, rfl⟩

theorem Coordinator.SameTasks.post {c d : Coordinator} (h : SameTasks c d) (n : Name) :
    d.post n = c.post n := by
  rw [Coordinator.post, h.stages, h.executions, Coordinator.post]

open Coordinator

/-- **What a move shifts** from a moment to the next one. -/
inductive Shift (m m' : Moment) : Prop where
  /-- No task is touched, and a leaf ends at most because it was claimed. -/
  | keep {gone extra rest : List Call}
      (agenda : m.agenda = gone ++ rest) (agenda' : m'.agenda = extra ++ rest)
      (completes : ∀ n code, .complete n code ∈ extra →
        ∃ call ∈ gone, 0 < Call.covers n call ∧ code = skippedCode)
      (launches : ∀ n, .launch n ∈ gone → m.run.stages.get? n ≠ some .starting)
      (order? : ∀ n, m.order? n = none) (same : SameTasks m.run m'.run)
  /-- A leaf that is committed gets a worker. -/
  | dispatch {n : Name} {t : StatusTable} {skip : Bool} {rest : List Call}
      (agenda : m.agenda = .evaluate n :: rest) (agenda' : m'.agenda = rest)
      (waits : m.status n = .waiting) (order? : ∀ k, m.order? k = if n = k then some skip else none)
      (run' : m'.run = { m.run with statuses := t }.dispatch n skip)
  /-- A worker has its turn. -/
  | worker {n : Name} (agenda : m.agenda = []) (isReady : .worker n ∈ m.run.ready)
      (order? : ∀ n, m.order? n = none)
      (turn : WorkerTurn { m.run with ready := m.run.ready.erase (.worker n) } n m'.agenda m'.run)
  /-- An executor has its turn, and with an answer it puts out a burst. -/
  | executor {n : Name} {part : Option Part} {burst : Burst} (agenda : m.agenda = [])
      (agenda' : m'.agenda = if part.isSome then burstCalls n burst else [])
      (isReady : .executor n ∈ m.run.ready) (order? : ∀ n, m.order? n = none)
      (turn : ExecutorTurn { m.run with ready := m.run.ready.erase (.executor n) } n part m'.run)
  /-- A worker whose start was announced launches its executor. -/
  | launch {n : Name} {rest : List Call}
      (agenda : m.agenda = .launch n :: rest) (agenda' : m'.agenda = rest)
      (here : m.run.stages.get? n = some .starting) (running : m.run.stopped = false)
      (order? : ∀ n, m.order? n = none)
      (run' : m'.run =
        ((m.run.setStage n .running).setExecution n .spawned).wake (.executor n))
  /-- The run was stopped by those who heard of the start, and there is no launch. -/
  | abandon {n : Name} {rest : List Call}
      (agenda : m.agenda = .launch n :: rest)
      (agenda' : m'.agenda = .complete n skippedCode :: rest)
      (here : m.run.stages.get? n = some .starting) (stopped : m.run.stopped = true)
      (order? : ∀ n, m.order? n = none) (run' : m'.run = (m.run.setStage n .done).giveBack)
  /-- An execution ends by itself, and its worker is woken. -/
  | ended {n : Name} {o : Outcome} {rest : List Call}
      (agenda : m.agenda = .pause n (some o) :: rest) (agenda' : m'.agenda = rest)
      (here : m.run.executions.get? n = some .begun) (order? : ∀ n, m.order? n = none)
      (run' : m'.run = (m.run.setExecution n (.ended o)).wake (.worker n))
  /-- An execution that waits is released, and its executor is woken. -/
  | resume {n : Name} {gone : List Call} (agenda : m.agenda = gone ++ m'.agenda)
      (pauses : ∀ call ∈ gone, call = .pause n none)
      (here : m.run.executions.get? n = some .begun) (order? : ∀ n, m.order? n = none)
      (woken : ∀ t, t ∈ m'.run.ready ↔ t ∈ m.run.ready ∨ t = .executor n)
      (same : SameTasks { m.run.setExecution n .resumed with ready := m'.run.ready } m'.run)
  /-- The run is stopped, and all workers that heed it are woken. -/
  | stop {rest : List Call}
      (agenda : m.agenda = .stop :: rest) (agenda' : m'.agenda = m.run.startCalls ++ rest)
      (running : m.run.stopped = false) (order? : ∀ n, m.order? n = none)
      (run' : m'.run = { m.run with stopped := true, ready := m.run.ready ++ m.run.sleepers })

/-! ## Orders -/

section Orders

variable {m : Moment} {n : Name}

theorem Moment.order?_eq_some {skip : Bool} : m.order? n = some skip ↔
    m.run.flow.isLeaf n = true ∧ m.verdict? n = some (if skip then .skip else .run) := by
  unfold Moment.order?
  cases m.run.flow.isLeaf n <;> cases hv : m.verdict? n with
  | none => simp
  | some v => cases v <;> cases skip <;> simp

/-- An order is given only for a leaf that is committed. -/
theorem Moment.order?_eq_none (h : ∀ d, m.commit? = some (n, d) → m.run.flow.isLeaf n = false) :
    m.order? n = none := by
  cases given : m.order? n with
  | none => rfl
  | some skip =>
    obtain ⟨isLeaf, verdict⟩ := Moment.order?_eq_some.1 given
    have group : m.run.flow.isLeaf n = false := by
      cases skip with
      | true => exact h _ (Moment.commit?_of_skip verdict)
      | false => exact h _ (Moment.commit?_of_run verdict)
    rw [isLeaf] at group
    cases group

/-- Nothing but an evaluation gives an order. -/
theorem Moment.order?_of_agenda (h : ∀ k rest, m.agenda ≠ .evaluate k :: rest) (n : Name) :
    m.order? n = none := by
  refine Moment.order?_eq_none fun d commit => ?_
  obtain ⟨-, s, rest, agenda, -⟩ := Moment.commit?_eq_some.1 commit
  exact absurd agenda (h n rest)

end Orders

/-! ## Every move is a shift -/

section Calls

variable {c : Coordinator} {n : Name} {code : Int}

theorem complete_notMem_startCalls : .complete n code ∉ c.startCalls := by
  simp [startCalls]

/-- A leaf that a call ends was covered by it, unless a launch is abandoned. -/
private theorem covers_of_complete {call : Call} (launches : ∀ k, call ≠ .launch k)
    (made : .complete n code ∈ (c.perform call).1) :
    0 < Call.covers n call ∧ code = skippedCode := by
  cases makes_of_mem_perform made with
  | spared mem =>
    have := List.count_pos_iff.2 (List.mem_map_of_mem (f := (·.name)) mem)
    refine ⟨?_, rfl⟩
    rw [Call.covers]
    omega
  | abandoned => exact absurd rfl (launches n)
  | reaction _ _ requested => cases requested

end Calls

section Moves

variable {c : Coordinator} {rest : List Call}

/-- A call that touches no task and launches nothing. -/
private theorem shift_keep {call : Call} (launches : ∀ n, call ≠ .launch n)
    (order? : ∀ n, (Moment.mk (call :: rest) c).order? n = none)
    (same : SameTasks c (c.perform call).2) :
    Shift ⟨call :: rest, c⟩ ⟨(c.perform call).1 ++ rest, (c.perform call).2⟩ :=
  @Shift.keep _ _ [call] (c.perform call).1 rest rfl rfl
    (fun _ _ h => ⟨call, List.mem_singleton.2 rfl, covers_of_complete launches h⟩)
    (fun n h => absurd (List.mem_singleton.1 h).symm (launches n)) order? same

/-- A call that does nothing at all. -/
private theorem shift_spent {call : Call} (launches : ∀ n, call ≠ .launch n)
    (order? : ∀ n, (Moment.mk (call :: rest) c).order? n = none) :
    Shift ⟨call :: rest, c⟩ ⟨rest, c⟩ :=
  @Shift.keep _ _ [call] [] rest rfl rfl (fun n code h => by cases h)
    (fun n h => absurd (List.mem_singleton.1 h).symm (launches n)) order? (.refl c)

private theorem order?_of_call {call : Call} (h : ∀ n, call ≠ .evaluate n) (n : Name) :
    (Moment.mk (call :: rest) c).order? n = none :=
  Moment.order?_of_agenda (fun k _ agenda => h k (List.cons.inj agenda).1) n

/-- An evaluation that commits no leaf. -/
private theorem shift_group {n : Name} (h : ∀ s, c.flow.step? n = some s →
      s.isGroup = true ∨ c.directive s = .noop) :
    Shift ⟨.evaluate n :: rest, c⟩ ⟨(c.evaluate n).1 ++ rest, (c.evaluate n).2⟩ := by
  refine @shift_keep c rest (.evaluate n) (fun k h => by cases h) (fun k => ?_) ?_
  · refine Moment.order?_eq_none fun d commit => ?_
    obtain ⟨decided, s, rest', agenda, found, rfl⟩ := Moment.commit?_eq_some.1 commit
    cases agenda
    rw [Flow.isLeaf_of_step? found, (h s found).resolve_right decided]
    rfl
  · rw [perform]
    rcases c.evaluate_cases n with idle | ⟨s, found, -, -, ⟨decided, run⟩ | ⟨decided, skip⟩⟩
    · rw [idle]
      exact .refl c
    · have group := (h s found).resolve_right (by rw [decided]; decide)
      rw [run, commitRun, if_pos group]
      exact ⟨rfl, rfl, rfl, rfl, rfl, rfl, rfl⟩
    · have group := (h s found).resolve_right (by rw [decided]; decide)
      rw [skip, commitSkip, if_pos group]
      exact ⟨rfl, rfl, rfl, rfl, rfl, rfl, rfl⟩

/-- An evaluation that commits a leaf. -/
private theorem shift_leaf {s : Step} (found : c.flow.step? s.name = some s)
    (isLeaf : s.isGroup = false) (known : c.statuses.knows s.name = true)
    (decided : c.directive s ≠ .noop) :
    Shift ⟨.evaluate s.name :: rest, c⟩ ⟨(c.evaluate s.name).1 ++ rest, (c.evaluate s.name).2⟩ := by
  have result : c.evaluate s.name =
      ([], (c.commit s).dispatch s.name (c.directive s = .skip)) := by
    cases hd : c.directive s with
    | noop => exact absurd hd decided
    | run => simp [evaluate_of_run found known hd, commitRun, isLeaf]
    | skip => simp [evaluate_of_skip found known hd, commitSkip, isLeaf]
  have commit : (Moment.mk (.evaluate s.name :: rest) c).commit? = some (s.name, c.directive s) :=
    Moment.commit?_eq_some.2 ⟨decided, s, rest, rfl, found, rfl⟩
  rw [result]
  refine .dispatch rfl rfl (waiting_of_directive decided) (fun k => ?_) rfl
  by_cases same : s.name = k
  · -- the order is the directive of the commit
    subst same
    rw [if_pos rfl, Moment.order?_eq_some, Flow.isLeaf_of_step? found, isLeaf,
      Moment.verdict?_self commit]
    cases hd : c.directive s with
    | noop => exact absurd hd decided
    | run => exact ⟨rfl, rfl⟩
    | skip => exact ⟨rfl, rfl⟩
  · rw [if_neg same]
    refine Moment.order?_eq_none fun d other => ?_
    rw [commit] at other
    cases other
    exact absurd rfl same

private theorem shift_evaluate {n : Name}
    (known : ∀ s, c.flow.step? n = some s → c.statuses.knows n = true) :
    Shift ⟨.evaluate n :: rest, c⟩ ⟨(c.evaluate n).1 ++ rest, (c.evaluate n).2⟩ := by
  by_cases group : ∀ s, c.flow.step? n = some s → s.isGroup = true ∨ c.directive s = .noop
  · exact shift_group group
  · -- otherwise the step is a leaf on which the rule decides
    obtain ⟨s, hs⟩ := not_forall.1 group
    obtain ⟨found, hs⟩ := Classical.not_imp.1 hs
    obtain ⟨isLeaf, decided⟩ := not_or.1 hs
    have name := Flow.step?_name found
    subst name
    exact shift_leaf found (by simpa using isLeaf) (known s found) decided

private theorem shift_launch (n : Name) :
    Shift ⟨.launch n :: rest, c⟩ ⟨(c.launch n).1 ++ rest, (c.launch n).2⟩ := by
  have order? := @order?_of_call c rest (.launch n) fun k h => by cases h
  unfold launch
  split
  · rename_i here
    split
    · rename_i stopped
      exact .abandon rfl rfl here stopped order? rfl
    · rename_i running
      exact .launch rfl rfl here (Bool.eq_false_iff.2 running) order? rfl
  · rename_i idle
    refine @Shift.keep _ _ [.launch n] [] rest rfl rfl (fun k code h => by cases h) ?_ order?
      (.refl c)
    intro k h
    cases List.mem_singleton.1 h
    exact idle

private theorem shift_pause (n : Name) (outcome : Option Outcome) :
    Shift ⟨.pause n outcome :: rest, c⟩ ⟨rest, c.pause n outcome⟩ := by
  have order? := @order?_of_call c rest (.pause n outcome) fun k h => by cases h
  have spent := @shift_spent c rest (.pause n outcome) (fun k h => by cases h) order?
  unfold pause
  split
  · rename_i here
    split
    · exact .ended rfl rfl here order? rfl
    · split
      · refine @Shift.resume _ _ n [.pause n none] rfl (by simp) here order? (fun t => ?_)
          ⟨rfl, rfl, rfl, rfl, rfl, rfl, rfl⟩
        simp only [List.mem_cons]
        exact or_comm
      · exact spent
  · exact spent

private theorem shift_stop : Shift ⟨.stop :: rest, c⟩ ⟨c.stop.1 ++ rest, c.stop.2⟩ := by
  have order? := @order?_of_call c rest .stop fun k h => by cases h
  unfold Coordinator.stop
  split
  · exact shift_spent (fun k h => by cases h) order?
  · rename_i running
    exact .stop rfl rfl (Bool.eq_false_iff.2 running) order? rfl

/-- **Every call that is carried out is a shift.** -/
theorem shift_perform (call : Call)
    (known : ∀ n s, c.flow.step? n = some s → c.statuses.knows n = true) :
    Shift ⟨call :: rest, c⟩ ⟨(c.perform call).1 ++ rest, (c.perform call).2⟩ := by
  cases call with
  | evaluate n => exact shift_evaluate (known n)
  | launch n => exact shift_launch n
  | pause n outcome => exact shift_pause n outcome
  | stop => exact shift_stop
  | subscribe | unsubscribe | countDown | deliver | skip | complete =>
    exact shift_keep (fun k h => by cases h) (order?_of_call fun k h => by cases h)
      ⟨rfl, rfl, rfl, rfl, rfl, rfl, rfl⟩
  | notify e =>
    exact shift_keep (fun k h => by cases h) (order?_of_call fun k h => by cases h) (.refl c)
  | close g =>
    refine shift_keep (fun k h => by cases h) (order?_of_call fun k h => by cases h) ?_
    simp only [perform, close]
    split
    · exact .refl c
    · split
      · exact ⟨rfl, rfl, rfl, rfl, rfl, rfl, rfl⟩
      · exact .refl c
  | childFinished g code =>
    refine shift_keep (fun k h => by cases h) (order?_of_call fun k h => by cases h) ?_
    simp only [perform, childFinished]
    split
    · exact .refl c
    · exact ⟨rfl, rfl, rfl, rfl, rfl, rfl, rfl⟩

private theorem shift_release (n : Name) : Shift ⟨[], c⟩ ⟨[], c.release n⟩ := by
  have order? := fun k => @Moment.order?_of_agenda ⟨[], c⟩ (fun k rest h => by cases h) k
  have keep : ∀ d, SameTasks c d → Shift ⟨[], c⟩ ⟨[], d⟩ := fun d =>
    @Shift.keep ⟨[], c⟩ ⟨[], d⟩ [] [] [] rfl rfl (fun k code h => by cases h)
      (fun k h => by cases h) order?
  unfold release
  split
  · rename_i here
    refine @Shift.resume ⟨[], c⟩ _ n [] rfl (fun call h => by cases h) here order? (fun t => ?_) ?_
    · exact mem_ready_wake
    · unfold wake
      split <;> exact ⟨rfl, rfl, rfl, rfl, rfl, rfl, rfl⟩
  · split
    · exact keep _ (.refl c)
    · exact keep _ ⟨rfl, rfl, rfl, rfl, rfl, rfl, rfl⟩

/-- **Every choice that is followed is a shift.** -/
theorem shift_choose (c : Coordinator) (x : Choice) : Shift ⟨[], c⟩ (c.choose x) := by
  have order? := fun k => @Moment.order?_of_agenda ⟨[], c⟩ (fun k rest h => by cases h) k
  have keep : ∀ extra, (∀ n code, .complete n code ∉ extra) → Shift ⟨[], c⟩ ⟨extra, c⟩ :=
    fun extra completes => @Shift.keep ⟨[], c⟩ ⟨extra, c⟩ [] extra [] rfl
      (List.append_nil extra).symm (fun k code h => absurd h (completes k code))
      (fun k h => by cases h) order? (.refl c)
  cases x with
  | request r =>
    cases r with
    | start => exact keep _ fun k code => complete_notMem_startCalls
    | stop => exact keep _ fun k code => by simp
    | release n => exact shift_release n
  | subscribe l => exact keep _ fun k code => by simp
  | unsubscribe number => exact keep _ fun k code => by simp
  | turn t burst =>
    rw [choose]
    split
    · rename_i isReady
      cases t with
      | worker n => exact .worker rfl isReady order? (workerTurn_spec _ n)
      | executor n =>
        have turn := executorTurn_spec { c with ready := c.ready.erase (.executor n) } n
        simp only [Coordinator.turn]
        cases hp : ({ c with ready := c.ready.erase (.executor n) } : Coordinator).part? n with
        | none =>
          rw [hp] at turn
          exact @Shift.executor _ _ n _ burst rfl rfl isReady order? turn
        | some part =>
          rw [hp] at turn
          exact @Shift.executor _ _ n _ burst rfl rfl isReady order? turn
    · exact keep _ fun k code => List.not_mem_nil

end Moves

/-- **Every move is a shift.** -/
theorem Orderly.shift_next {f : Flow} {m : Moment} (o : Orderly f m) (x : Choice) :
    Shift m (m.next x) := by
  obtain ⟨agenda, c⟩ := m
  cases agenda with
  | nil => exact shift_choose c x
  | cons call rest =>
    refine shift_perform call fun n s hs => ?_
    rw [o.flow] at hs
    rw [o.knows, Flow.contains_of_step? hs]

/-! ## The stop -/

theorem Coordinator.WorkerTurn.stopped {c d : Coordinator} {n : Name} {calls : List Call}
    (turn : WorkerTurn c n calls d) : d.stopped = c.stopped := by
  cases turn with
  | rest | skip | leave | take | queue | unqueue | start => rfl
  | decline | finish => rw [stopped_giveBack, stopped_setStage]
  | cut => rw [stopped_giveBack, stopped_cancel, stopped_setStage]

theorem Coordinator.ExecutorTurn.stopped {c d : Coordinator} {n : Name} {part : Option Part}
    (turn : ExecutorTurn c n part d) : d.stopped = c.stopped := by
  cases turn <;> rfl

namespace Shift

variable {m m' : Moment}

/-- A shift does not start again what was stopped, and only the request of a stop stops it. -/
theorem stopped (s : Shift m m') : m'.run.stopped = m.run.stopped ∨
    (m'.run.stopped = true ∧ ∃ rest, m.agenda = .stop :: rest) := by
  cases s with
  | keep _ _ _ _ _ same => exact .inl same.stopped
  | dispatch _ _ _ _ run' => exact .inl (by rw [run', stopped_dispatch])
  | worker _ _ _ turn => exact .inl turn.stopped
  | executor _ _ _ _ turn => exact .inl turn.stopped
  | launch _ _ _ _ _ run' =>
    exact .inl (by rw [run', stopped_wake, stopped_setExecution, stopped_setStage])
  | abandon _ _ _ _ _ run' => exact .inl (by rw [run', stopped_giveBack, stopped_setStage])
  | ended _ _ _ _ run' => exact .inl (by rw [run', stopped_wake, stopped_setExecution])
  | resume _ _ _ _ _ same => exact .inl same.stopped
  | stop agenda _ _ _ run' => exact .inr ⟨by rw [run'], _, agenda⟩

/-- A run that is stopped stays so. -/
theorem stopped_stays (s : Shift m m') (h : m.run.stopped = true) : m'.run.stopped = true := by
  rcases s.stopped with same | ⟨now, -⟩
  · rw [same, h]
  · exact now

/-- A run that is not stopped has not been stopped before. -/
theorem unstopped_before (s : Shift m m') (h : m'.run.stopped = false) :
    m.run.stopped = false := by
  cases stopped : m.run.stopped with
  | false => rfl
  | true =>
    rw [s.stopped_stays stopped] at h
    cases h

end Shift

end StepFlow
