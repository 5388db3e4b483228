import StepFlow.Proofs.Course.FreshEvents

/-! # What moves do not look at

Two parts of the state of a run are looked at in few places. The listeners are looked at when an
event is told to them, and the order of the ready tasks is looked at when the next one is taken.
Everything else that happens only puts tasks behind those that are ready, so it happens in the same
way **amid** other listeners and with the ready tasks in another order.

Only an execution that waits though it was released before goes on at once, before all that is
ready.

Main statements: `Coordinator.yields_perform` for calls and `Coordinator.yields_workerTurn` for the
turns of workers. -/

namespace StepFlow

/-- Whether a call changes nothing but the registry. -/
def Call.isSocial : Call → Bool
  | .subscribe _ | .unsubscribe _ | .deliver _ _ => true
  | _ => false

namespace Coordinator

/-- The run amid other listeners and with another queue. -/
def amid (c : Coordinator) (r : Registry) (queue : List Task) : Coordinator :=
  { c with registry := r, ready := queue }

/-- Whether a queue holds the tasks that are ready, in whatever order. -/
def Holds (c : Coordinator) (queue : List Task) : Prop := ∀ t, t ∈ queue ↔ t ∈ c.ready

/-- A move **appends** some tasks to the queue and does not look at listeners or at the order of the
queue. -/
def Appends (c : Coordinator) (move : Coordinator → Coordinator) : Prop :=
  ∃ post, ∀ r q, c.Holds q → move (c.amid r q) = (move c).amid r (q ++ post)

/-- A move **yields** calls and appends some tasks to the queue, and does not look at listeners or
at the order of the queue. -/
def Yields (c : Coordinator) (move : Coordinator → List Call × Coordinator) : Prop :=
  ∃ post, ∀ r q, c.Holds q → move (c.amid r q) = ((move c).1, (move c).2.amid r (q ++ post))

variable {c : Coordinator} {f g : Coordinator → Coordinator}
  {move : Coordinator → List Call × Coordinator}

theorem holds_ready (c : Coordinator) : c.Holds c.ready := fun _ => .rfl

/-- A queue in another order holds the same tasks. -/
theorem holds_of_perm {q : List Task} (h : q.Perm c.ready) : c.Holds q := fun _ => h.mem_iff

/-- A move that leaves listeners and queue alone appends nothing. -/
theorem appends_of_update (same : ∀ r q, f (c.amid r q) = (f c).amid r q) : c.Appends f :=
  ⟨[], fun r q _ => by rw [same, List.append_nil]⟩

namespace Appends

/-- What is appended stands behind what was ready. -/
theorem ready (h : c.Appends f) : ∃ post, (f c).ready = c.ready ++ post := by
  obtain ⟨post, goes⟩ := h
  exact ⟨post, congrArg Coordinator.ready (goes c.registry c.ready c.holds_ready)⟩

/-- One move after the other appends what both of them append. -/
theorem comp (h : c.Appends f) (k : (f c).Appends g) : c.Appends fun d => g (f d) := by
  obtain ⟨post, goes⟩ := h
  obtain ⟨post', goes'⟩ := k
  have ready : (f c).ready = c.ready ++ post :=
    congrArg Coordinator.ready (goes c.registry c.ready c.holds_ready)
  refine ⟨post ++ post', fun r q holds => ?_⟩
  have between : (f c).Holds (q ++ post) := by
    intro t
    rw [ready, List.mem_append, List.mem_append, holds t]
  show g (f (c.amid r q)) = _
  rw [goes r q holds, goes' r _ between, List.append_assoc]

/-- A move that amounts to one that appends does so. -/
theorem of_eq (h : c.Appends g) (goes : ∀ r q, f (c.amid r q) = g (c.amid r q)) :
    c.Appends f := by
  obtain ⟨post, appends⟩ := h
  refine ⟨post, fun r q holds => ?_⟩
  have here : f c = g c := goes c.registry c.ready
  rw [goes, here, appends r q holds]

/-- A move that makes calls and amounts to one that appends yields them. -/
theorem yields (h : c.Appends f) (calls : List Call)
    (goes : ∀ r q, move (c.amid r q) = (calls, f (c.amid r q))) : c.Yields move := by
  obtain ⟨post, appends⟩ := h
  refine ⟨post, fun r q holds => ?_⟩
  have here : move c = (calls, f c) := goes c.registry c.ready
  rw [goes, here, appends r q holds]

end Appends

/-- A move that makes calls and leaves listeners and queue alone yields the calls. -/
theorem yields_of_update (calls : List Call) (f : Coordinator → Coordinator)
    (goes : ∀ r q, move (c.amid r q) = (calls, f (c.amid r q)))
    (same : ∀ r q, f (c.amid r q) = (f c).amid r q) : c.Yields move :=
  (appends_of_update same).yields calls goes

/-- A move that comes to nothing yields nothing. -/
theorem yields_nothing (goes : ∀ r q, move (c.amid r q) = ([], c.amid r q)) : c.Yields move :=
  yields_of_update [] id goes fun _ _ => rfl

/-- A move that amounts to one that yields does so. -/
theorem Yields.of_eq {other : Coordinator → List Call × Coordinator} (h : c.Yields other)
    (goes : ∀ r q, move (c.amid r q) = other (c.amid r q)) : c.Yields move := by
  obtain ⟨post, yields⟩ := h
  refine ⟨post, fun r q holds => ?_⟩
  have here : move c = other c := goes c.registry c.ready
  rw [goes, here, yields r q holds]

/-! ## Moves of tasks and permits -/

/-- Who sleeps does not depend on the order of the queue. -/
theorem sleepers_amid (r : Registry) {q : List Task} (holds : c.Holds q) :
    (c.amid r q).sleepers = c.sleepers := by
  unfold sleepers
  congr 1
  funext t
  exact decide_eq_decide.2 (not_congr (holds t))

section Moves

variable (c)

theorem appends_wake (t : Task) : c.Appends (·.wake t) := by
  by_cases isReady : t ∈ c.ready
  · refine ⟨[], fun r q holds => ?_⟩
    have there : t ∈ (c.amid r q).ready := (holds t).2 isReady
    simp only [wake]
    rw [if_pos isReady, if_pos there, List.append_nil]
  · refine ⟨[t], fun r q holds => ?_⟩
    have there : t ∉ (c.amid r q).ready := fun h => isReady ((holds t).1 h)
    simp only [wake]
    rw [if_neg isReady, if_neg there]
    rfl

theorem appends_setStage (n : Name) (s : Stage) : c.Appends (·.setStage n s) :=
  appends_of_update fun _ _ => rfl

theorem appends_setExecution (n : Name) (e : Execution) : c.Appends (·.setExecution n e) :=
  appends_of_update fun _ _ => rfl

theorem appends_dispatch (n : Name) (skip : Bool) : c.Appends (·.dispatch n skip) :=
  (c.appends_setStage n (.dispatched skip)).comp (appends_wake _ (.worker n))

theorem appends_grant (n : Name) : c.Appends (·.grant n) := by
  by_cases queued : c.stages.get? n = some .queued
  · refine .of_eq ((c.appends_setStage n .granted).comp (appends_wake _ (.worker n))) fun r q => ?_
    exact if_pos queued
  · exact appends_of_update fun r q => by simp [grant, amid, queued]

theorem appends_giveBack : c.Appends (·.giveBack) := by
  cases waiters : c.waiters with
  | nil => exact appends_of_update fun r q => by simp [giveBack, amid, waiters]
  | cons n rest =>
    refine .of_eq (g := fun d => { d with waiters := rest }.grant n) ?_ fun r q => ?_
    · exact .comp (f := fun d => { d with waiters := rest }) (appends_of_update fun r q => rfl)
        (appends_grant _ n)
    · simp [giveBack, amid, waiters]

theorem appends_cancel (n : Name) : c.Appends (·.cancel n) := by
  have cut := fun e => (c.appends_setExecution n e).comp (appends_wake _ (.executor n))
  cases he : c.executions.get? n with
  | none => exact appends_of_update fun r q => by simp [cancel, amid, he]
  | some e =>
    cases e with
    | spawned => exact .of_eq (cut (.cancelled false)) fun r q => by simp [cancel, amid, he]
    | begun | resumed => exact .of_eq (cut (.cancelled true)) fun r q => by simp [cancel, amid, he]
    | ended | cancelled | dropped =>
      exact appends_of_update fun r q => by simp [cancel, amid, he]

theorem appends_release (n : Name) : c.Appends (·.release n) := by
  by_cases waits : c.executions.get? n = some .begun
  · refine .of_eq ((c.appends_setExecution n .resumed).comp (appends_wake _ (.executor n)))
      fun r q => ?_
    simp [release, amid, waits]
  · refine appends_of_update fun r q => ?_
    have goes : ∀ d : Coordinator, d.executions = c.executions → d.release n =
        if n ∈ d.released then d else { d with released := n :: d.released } := by
      intro d same
      unfold release
      rw [same]
      split
      · rename_i here
        exact absurd here waits
      · rfl
    rw [goes c rfl, goes (c.amid r q) rfl]
    by_cases known : n ∈ c.released <;> simp [amid, known]

end Moves

/-! ## Calls -/

section Calls

variable (c)

theorem appends_commit (s : Step) (skip : Bool) :
    c.Appends fun d => (d.commit s).dispatch s.name skip :=
  .comp (f := fun d => d.commit s) (appends_of_update fun _ _ => rfl)
    (appends_dispatch _ s.name skip)

theorem yields_commitRun (s : Step) : c.Yields (·.commitRun s) := by
  cases isGroup : s.isGroup with
  | true =>
    exact yields_of_update _ (·.commit s)
      (fun r q => by simp [commitRun, amid, commit, isGroup]; rfl) fun _ _ => rfl
  | false => exact (c.appends_commit s false).yields [] fun r q => by simp [commitRun, isGroup]

theorem yields_commitSkip (s : Step) : c.Yields (·.commitSkip s) := by
  cases isGroup : s.isGroup with
  | true =>
    exact yields_of_update _
      (fun d => { d with statuses := (claimAll (d.flow.below s.name) d.statuses).2 }.commit s)
      (fun r q => by simp [commitSkip, amid, commit, isGroup]; rfl) fun _ _ => rfl
  | false => exact (c.appends_commit s true).yields [] fun r q => by simp [commitSkip, isGroup]

theorem yields_evaluate (n : Name) : c.Yields (·.evaluate n) := by
  cases hs : c.flow.step? n with
  | none => exact yields_nothing fun r q => by simp [evaluate, amid, hs]
  | some s =>
    have found : ∀ r q, (c.amid r q).flow.step? n = some s := fun _ _ => hs
    have same : ∀ r q, (c.amid r q).directive s = c.directive s := fun _ _ => rfl
    have knows : ∀ r q, (c.amid r q).statuses.knows s.name = c.statuses.knows s.name :=
      fun _ _ => rfl
    cases known : c.statuses.knows s.name with
    | false => exact yields_nothing fun r q => by simp [evaluate, found, knows, known]
    | true =>
      cases hd : c.directive s with
      | noop => exact yields_nothing fun r q => evaluate_of_noop (found r q) hd
      | run => exact .of_eq (c.yields_commitRun s) fun r q => evaluate_of_run (found r q) known hd
      | skip =>
        exact .of_eq (c.yields_commitSkip s) fun r q => evaluate_of_skip (found r q) known hd

theorem yields_close (g : Name) : c.Yields (·.close g) := by
  cases hp : c.progress.get? g with
  | none => exact yields_nothing fun r q => by simp [close, amid, hp]
  | some p =>
    by_cases done : c.status g = .inProgress ∧ p.pending = 0
    · refine yields_of_update (c.propagation g (if p.failed then skippedCode else 0))
        (fun d => { d with
          statuses := d.statuses.set g (.ofExitCode (if p.failed then skippedCode else 0)) })
        (fun r q => ?_) fun _ _ => rfl
      unfold close
      rw [show (c.amid r q).progress = c.progress from rfl, hp]
      exact if_pos done
    · refine yields_nothing fun r q => ?_
      unfold close
      rw [show (c.amid r q).progress = c.progress from rfl, hp]
      exact if_neg done

theorem yields_childFinished (g : Name) (code : Int) : c.Yields (·.childFinished g code) := by
  cases hp : c.progress.get? g with
  | none =>
    exact yields_of_update [.close g] id
      (fun r q => by simp [childFinished, amid, hp]) fun _ _ => rfl
  | some p =>
    exact yields_of_update [.close g] (fun d => { d with
        progress := d.progress.set g
          { pending := p.pending - 1, failed := p.failed || code ≠ 0 } })
      (fun r q => by simp [childFinished, amid, hp]) fun _ _ => rfl

theorem yields_launch (n : Name) : c.Yields (·.launch n) := by
  by_cases here : c.stages.get? n = some .starting
  · cases stopped : c.stopped with
    | true =>
      refine ((c.appends_setStage n .done).comp (appends_giveBack _)).yields
        [.complete n skippedCode] fun r q => ?_
      unfold launch
      rw [if_pos (show (c.amid r q).stages.get? n = some .starting from here),
        if_pos (show (c.amid r q).stopped = true from stopped)]
    | false =>
      refine (((c.appends_setStage n .running).comp
        (appends_setExecution _ n .spawned)).comp (appends_wake _ (.executor n))).yields
          [] fun r q => ?_
      unfold launch
      rw [if_pos (show (c.amid r q).stages.get? n = some .starting from here),
        if_neg (show ¬ (c.amid r q).stopped = true by rw [Bool.not_eq_true]; exact stopped)]
  · exact yields_nothing fun r q => if_neg here

theorem yields_stop : c.Yields (·.stop) := by
  cases stopped : c.stopped with
  | true => exact yields_nothing fun r q => if_pos stopped
  | false =>
    have goes : ∀ d : Coordinator, d.stopped = false →
        d.stop = (d.startCalls, { d with stopped := true, ready := d.ready ++ d.sleepers }) :=
      fun d running => if_neg (by rw [running]; decide)
    refine ⟨c.sleepers, fun r q holds => ?_⟩
    simp only [goes c stopped, goes (c.amid r q) stopped, sleepers_amid r holds]
    rfl

variable {c}

/-- **A call that does not concern listeners** yields what follows from it, unless it lets an
execution wait. -/
theorem yields_perform {call : Call} (social : call.isSocial = false) (silent : call.event? = none)
    (goesOn : ∀ n o, call ≠ .pause n o) : c.Yields (·.perform call) := by
  cases call with
  | notify => cases silent
  | subscribe | unsubscribe | deliver => cases social
  | pause n o => exact absurd rfl (goesOn n o)
  | stop => exact c.yields_stop
  | evaluate n => exact c.yields_evaluate n
  | close g => exact c.yields_close g
  | childFinished g code => exact c.yields_childFinished g code
  | launch n => exact c.yields_launch n
  | skip g claimed =>
    exact yields_of_update (c.skip g claimed).1
      (fun d => { d with
        progress := (g :: (claimed.filter (·.isGroup)).map (·.name)).foldl markFailed d.progress })
      (fun _ _ => rfl) fun _ _ => rfl
  | complete n code =>
    exact yields_of_update (c.propagation n code)
      (fun d => { d with statuses := d.statuses.set n (.ofExitCode code) })
      (fun _ _ => rfl) fun _ _ => rfl
  | countDown =>
    exact yields_of_update []
      (fun d => { d with remaining := d.remaining - 1 }) (fun _ _ => rfl) fun _ _ => rfl

/-- An execution that waits puts something at either end of the queue. -/
theorem pause_amid (n : Name) (o : Option Outcome) : ∃ pre post, ∀ r q, c.Holds q →
    (c.amid r q).pause n o = (c.pause n o).amid r (pre ++ q ++ post) := by
  by_cases here : c.executions.get? n = some .begun
  · cases o with
    | some o =>
      obtain ⟨post, appends⟩ :=
        (c.appends_setExecution n (.ended o)).comp (appends_wake _ (.worker n))
      refine ⟨[], post, fun r q holds => ?_⟩
      have goes : ∀ r q, (c.amid r q).pause n (some o) =
          ((c.amid r q).setExecution n (.ended o)).wake (.worker n) := fun r q => if_pos here
      have here : c.pause n (some o) = (c.setExecution n (.ended o)).wake (.worker n) :=
        goes c.registry c.ready
      rw [here]
      exact (goes r q).trans (appends r q holds)
    | none =>
      by_cases known : n ∈ c.released
      · refine ⟨[.executor n], [], fun r q _ => ?_⟩
        have there : (c.amid r q).executions.get? n = some .begun := here
        have known' : n ∈ (c.amid r q).released := known
        simp only [pause]
        rw [if_pos here, if_pos there, if_pos known, if_pos known', List.append_nil]
        rfl
      · refine ⟨[], [], fun r q _ => ?_⟩
        have there : (c.amid r q).executions.get? n = some .begun := here
        have known' : n ∉ (c.amid r q).released := known
        simp only [pause]
        rw [if_pos here, if_pos there, if_neg known, if_neg known', List.append_nil]
        rfl
  · refine ⟨[], [], fun r q _ => ?_⟩
    have there : (c.amid r q).executions.get? n ≠ some .begun := here
    simp only [pause]
    rw [if_neg here, if_neg there, List.append_nil]
    rfl

end Calls

/-! ## Turns -/

section Turns

/-- **The turn of a worker** yields its calls. -/
theorem yields_workerTurn (c : Coordinator) (n : Name) : c.Yields (·.workerTurn n) := by
  -- where a permit is given back the next worker in line is woken, which appends to the queue;
  -- everywhere else the state is updated in parts that neither listeners nor queue are among
  have finish : c.Appends fun d => (d.setStage n .done).giveBack :=
    (c.appends_setStage n .done).comp (appends_giveBack _)
  have cut : c.Appends fun d => ((d.setStage n .done).cancel n).giveBack :=
    ((c.appends_setStage n .done).comp (appends_cancel _ n)).comp (appends_giveBack _)
  cases hs : c.stages.get? n with
  | none => exact yields_nothing fun r q => by simp [workerTurn, amid, hs]
  | some s =>
    cases s with
    | dispatched skip =>
      cases skip with
      | true =>
        exact yields_of_update _ (·.setStage n .done)
          (fun r q => by simp [workerTurn, amid, hs]; rfl) fun _ _ => rfl
      | false =>
        cases stopped : c.stopped with
        | true =>
          exact yields_of_update _ (·.setStage n .done)
            (fun r q => by simp [workerTurn, amid, hs, stopped]; rfl) fun _ _ => rfl
        | false =>
          by_cases free : c.permits > 0
          · exact yields_of_update _
              (fun d => { d with permits := d.permits - 1 }.setStage n .starting)
              (fun r q => by simp [workerTurn, amid, hs, stopped, free]; rfl) fun _ _ => rfl
          · exact yields_of_update _
              (fun d => { d with waiters := d.waiters ++ [n] }.setStage n .queued)
              (fun r q => by simp [workerTurn, amid, hs, stopped, free]; rfl) fun _ _ => rfl
    | queued =>
      cases stopped : c.stopped with
      | true =>
        exact yields_of_update _
          (fun d => { d with waiters := d.waiters.erase n }.setStage n .done)
          (fun r q => by simp [workerTurn, amid, hs, stopped]; rfl) fun _ _ => rfl
      | false => exact yields_nothing fun r q => by simp [workerTurn, amid, hs, stopped]
    | granted =>
      cases stopped : c.stopped with
      | true => exact finish.yields _ fun r q => by simp [workerTurn, amid, hs, stopped]; rfl
      | false =>
        exact yields_of_update _ (·.setStage n .starting)
          (fun r q => by simp [workerTurn, amid, hs, stopped]; rfl) fun _ _ => rfl
    | running =>
      cases stopped : c.stopped with
      | true => exact cut.yields _ fun r q => by simp [workerTurn, amid, hs, stopped]; rfl
      | false =>
        cases he : c.executions.get? n with
        | none => exact yields_nothing fun r q => by simp [workerTurn, amid, hs, stopped, he]
        | some e =>
          cases e with
          | ended o =>
            exact finish.yields _ fun r q => by simp [workerTurn, amid, hs, stopped, he]; rfl
          | spawned | begun | resumed | cancelled | dropped =>
            exact yields_nothing fun r q => by simp [workerTurn, amid, hs, stopped, he]
    | starting | done => exact yields_nothing fun r q => by simp [workerTurn, amid, hs]

/-- The turn of an executor that has nothing to answer appends nothing. -/
theorem appends_executorTurn (c : Coordinator) (n : Name) : c.Appends (·.executorTurn n) := by
  refine appends_of_update fun r q => ?_
  unfold executorTurn
  rw [show (c.amid r q).executions = c.executions from rfl]
  split <;> rfl

end Turns

end Coordinator

end StepFlow
