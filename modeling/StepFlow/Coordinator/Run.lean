import StepFlow.Coordinator.Turn

/-! # Runs

`runUntilIdle` gives every ready task its turn, first come first served, until no task is ready. It
ends whatever the executor does, since a turn either leaves the queue without a new task or takes
something away that does not come back: a step that waits, a stage or an execution that is not over,
a remembered release, the chance of a stop. That is the **effort** left.

The requests from outside, a start, a stop and a release, are settled on the spot and leave the
tasks to the next run.

Main statements: `perform_eases` and `turn_eases`, that no call and no turn adds to the effort left,
and that one which makes a task ready takes some of it away. -/

namespace StepFlow

/-! ## Effort -/

/-- The effort left for a step with a status before it has a worker. -/
def Status.effort : Status → Nat
  | .waiting => 5
  | .inProgress | .succeeded | .failed => 0

/-- The effort left for a worker in a stage. -/
def Stage.effort : Stage → Nat
  | .dispatched _ | .queued => 4
  | .granted | .starting => 3
  | .running => 1
  | .done => 0

/-- The effort left for an execution. -/
def Execution.effort : Execution → Nat
  | .spawned | .begun | .resumed => 1
  | .ended _ | .cancelled _ | .dropped => 0

namespace Table

variable {α : Type}

/-- Replacing a value changes the sum by the difference of the weights. -/
theorem weigh_set_of_get? {w : α → Nat} {t : Table α} {n : Name} {old : α} (a : α)
    (h : t.get? n = some old) : weigh w (t.set n a) + w old = weigh w t + w a := by
  simpa [weightAt, h] using weigh_set w t n a

/-- Setting a value adds at most its weight. -/
theorem weigh_set_le (w : α → Nat) (t : Table α) (n : Name) (a : α) :
    weigh w (t.set n a) ≤ weigh w t + w a :=
  Nat.le_of_add_right_le (Nat.le_of_eq (weigh_set w t n a))

end Table

namespace Coordinator

/-- The effort that is left in a run. -/
def effort (c : Coordinator) : Nat :=
  Table.weigh Status.effort c.statuses.entries + Table.weigh Stage.effort c.stages +
    Table.weigh Execution.effort c.executions + c.released.length + (!c.stopped).toNat

/-- From one state to a later one, no effort was added, and if a task became ready some was taken
away. -/
def Eases (c d : Coordinator) : Prop :=
  d.effort < c.effort ∨ (d.effort ≤ c.effort ∧ d.ready = c.ready)

theorem Eases.refl (c : Coordinator) : Eases c c := .inr ⟨Nat.le_refl _, rfl⟩

theorem Eases.trans {b c d : Coordinator} (h : Eases b c) (k : Eases c d) : Eases b d := by
  rcases h with h | ⟨h, h'⟩ <;> rcases k with k | ⟨k, k'⟩
  · exact .inl (by omega)
  · exact .inl (by omega)
  · exact .inl (by omega)
  · exact .inr ⟨by omega, k'.trans h'⟩

/-! ## Moves -/

@[simp] theorem effort_wake (c : Coordinator) (t : Task) : (c.wake t).effort = c.effort := by
  unfold wake effort; split <;> rfl

theorem effort_setStage {c : Coordinator} {n : Name} {old : Stage} (s : Stage)
    (h : c.stages.get? n = some old) :
    (c.setStage n s).effort + old.effort = c.effort + s.effort := by
  have := Table.weigh_set_of_get? (w := Stage.effort) s h
  simp only [effort, setStage]
  omega

theorem effort_setExecution {c : Coordinator} {n : Name} {old : Execution} (e : Execution)
    (h : c.executions.get? n = some old) :
    (c.setExecution n e).effort + old.effort = c.effort + e.effort := by
  have := Table.weigh_set_of_get? (w := Execution.effort) e h
  simp only [effort, setExecution]
  omega

theorem effort_setExecution_le (c : Coordinator) (n : Name) (e : Execution) :
    (c.setExecution n e).effort ≤ c.effort + e.effort := by
  have := Table.weigh_set_le Execution.effort c.executions n e
  simp only [effort, setExecution]
  omega

/-- Handing a leaf that was just committed to a worker takes effort away. -/
theorem effort_dispatch_lt {c : Coordinator} {s : Step} (skip : Bool)
    (known : c.statuses.knows s.name = true) (waits : c.status s.name = .waiting) :
    ((c.commit s).dispatch s.name skip).effort < c.effort := by
  have committed := weigh_commit Status.effort known waits
  have staged := Table.weigh_set_le Stage.effort c.stages s.name (.dispatched skip)
  simp only [commit, Status.effort, Stage.effort] at committed staged
  simp only [dispatch, effort_wake]
  simp only [effort, commit]
  omega

theorem giveBack_eases (c : Coordinator) : Eases c c.giveBack := by
  unfold giveBack
  split
  · exact .inr ⟨Nat.le_refl _, rfl⟩
  · unfold grant
    split
    · rename_i rest _ h
      have moved := Table.weigh_set_of_get? (w := Stage.effort) .granted h
      simp only [Stage.effort] at moved
      refine .inl ?_
      simp only [effort_wake]
      simp only [effort]
      omega
    · exact .inr ⟨Nat.le_refl _, rfl⟩

theorem cancel_eases (c : Coordinator) (n : Name) : Eases c (c.cancel n) := by
  unfold cancel
  split
  · rename_i h
    have moved := effort_setExecution (.cancelled false) h
    simp only [Execution.effort] at moved
    exact .inl (by simp only [effort_wake]; omega)
  · rename_i h
    have moved := effort_setExecution (.cancelled true) h
    simp only [Execution.effort] at moved
    exact .inl (by simp only [effort_wake]; omega)
  · rename_i h
    have moved := effort_setExecution (.cancelled true) h
    simp only [Execution.effort] at moved
    exact .inl (by simp only [effort_wake]; omega)
  · exact .refl c

/-- Moving a worker to a stage that leaves no more effort eases the run. -/
theorem setStage_eases {c : Coordinator} {n : Name} {old s : Stage}
    (h : c.stages.get? n = some old) (le : s.effort ≤ old.effort) : Eases c (c.setStage n s) := by
  have := effort_setStage s h
  exact .inr ⟨by omega, rfl⟩

/-- Replacing the statuses by a table of no more effort eases the run. -/
theorem eases_statuses (c : Coordinator) {t : StatusTable}
    (h : Table.weigh Status.effort t.entries ≤ Table.weigh Status.effort c.statuses.entries) :
    Eases c { c with statuses := t } :=
  .inr ⟨by simp only [effort]; omega, rfl⟩

/-! ## Calls -/

theorem commit_eases (c : Coordinator) (s : Step) : Eases c (c.commit s) :=
  eases_statuses c (StatusTable.weigh_set_le _ _ rfl)

theorem evaluate_eases (c : Coordinator) (n : Name) : Eases c (c.evaluate n).2 := by
  rcases c.evaluate_cases n with idle | ⟨s, -, known, waits, ⟨-, run⟩ | ⟨-, skip⟩⟩
  · rw [idle]
    exact .refl c
  · rw [run, commitRun]
    cases s.isGroup with
    | true => exact commit_eases c s
    | false => exact .inl (effort_dispatch_lt false known waits)
  · rw [skip, commitSkip]
    cases s.isGroup with
    | true =>
      have below := weigh_claimAll Status.effort (c.flow.below s.name) c.statuses
      simp only [Status.effort] at below
      exact (eases_statuses c (by omega)).trans (commit_eases _ s)
    | false => exact .inl (effort_dispatch_lt true known waits)

private theorem effort_ofExitCode (code : Int) : (Status.ofExitCode code).effort = 0 := by
  unfold Status.ofExitCode; split <;> rfl

theorem close_eases (c : Coordinator) (g : Name) : Eases c (c.close g).2 := by
  unfold close
  split
  · exact .refl c
  · split
    · exact eases_statuses c (StatusTable.weigh_set_le _ _ (effort_ofExitCode _))
    · exact .refl c

theorem childFinished_eases (c : Coordinator) (g : Name) (code : Int) :
    Eases c (c.childFinished g code).2 := by
  unfold childFinished
  split <;> exact .inr ⟨Nat.le_refl _, rfl⟩

theorem launch_eases (c : Coordinator) (n : Name) : Eases c (c.launch n).2 := by
  unfold launch
  split
  · rename_i h
    split
    · exact (setStage_eases (s := .done) h (Nat.zero_le _)).trans (giveBack_eases _)
    · have staged := effort_setStage .running h
      have spawned := effort_setExecution_le (c.setStage n .running) n .spawned
      simp only [Stage.effort, Execution.effort] at staged spawned
      exact .inl (by simp only [effort_wake]; omega)
  · exact .refl c

theorem pause_eases (c : Coordinator) (n : Name) (outcome : Option Outcome) :
    Eases c (c.pause n outcome) := by
  unfold pause
  split
  · rename_i h
    split
    · rename_i o
      have moved := effort_setExecution (.ended o) h
      simp only [Execution.effort] at moved
      exact .inl (by simp only [effort_wake]; omega)
    · split
      · rename_i mem
        have moved := Table.weigh_set_of_get? (w := Execution.effort) .resumed h
        have shorter := List.length_erase_of_mem mem
        have some_ := List.length_pos_of_mem mem
        simp only [Execution.effort] at moved
        refine .inl ?_
        simp only [effort, setExecution]
        omega
      · exact .refl c
  · exact .refl c

theorem stop_eases (c : Coordinator) : Eases c c.stop.2 := by
  unfold stop
  split
  · exact .refl c
  · rename_i h
    refine .inl ?_
    simp [effort, h]

/-- **No call adds to the effort left.** -/
theorem perform_eases (c : Coordinator) (call : Call) : Eases c (c.perform call).2 := by
  cases call with
  | stop => exact stop_eases c
  | subscribe l => exact .inr ⟨Nat.le_refl _, rfl⟩
  | unsubscribe number => exact .inr ⟨Nat.le_refl _, rfl⟩
  | notify e => exact .refl c
  | deliver number e => exact .inr ⟨Nat.le_refl _, rfl⟩
  | evaluate n => exact evaluate_eases c n
  | skip g claimed => exact .inr ⟨Nat.le_refl _, rfl⟩
  | close g => exact close_eases c g
  | complete n code =>
    exact eases_statuses c (StatusTable.weigh_set_le _ _ (effort_ofExitCode _))
  | childFinished g code => exact childFinished_eases c g code
  | countDown => exact .inr ⟨Nat.le_refl _, rfl⟩
  | launch n => exact launch_eases c n
  | pause n outcome => exact pause_eases c n outcome

theorem settle_eases (calls : List Call) (c : Coordinator) : Eases c (settle calls c) := by
  fun_induction settle calls c with
  | case1 c => exact .refl c
  | case2 call rest c result ih => exact (perform_eases c call).trans ih

/-! ## Turns -/

theorem workerTurn_eases (c : Coordinator) (n : Name) : Eases c (c.workerTurn n).2 := by
  unfold workerTurn
  split
  · rename_i h
    exact setStage_eases h (Nat.zero_le _)
  · rename_i h
    split
    · exact setStage_eases h (Nat.zero_le _)
    · split
      · exact Eases.trans (c := { c with permits := c.permits - 1 }) (.inr ⟨Nat.le_refl _, rfl⟩)
          (setStage_eases h (by decide))
      · exact Eases.trans (c := { c with waiters := c.waiters ++ [n] }) (.inr ⟨Nat.le_refl _, rfl⟩)
          (setStage_eases h (by decide))
  · rename_i h
    split
    · exact Eases.trans (c := { c with waiters := c.waiters.erase n })
        (.inr ⟨Nat.le_refl _, rfl⟩) (setStage_eases h (Nat.zero_le _))
    · exact .refl c
  · rename_i h
    split
    · exact (setStage_eases (s := .done) h (Nat.zero_le _)).trans (giveBack_eases _)
    · exact setStage_eases h (by decide)
  · rename_i h
    have finished := setStage_eases (s := .done) h (Nat.zero_le _)
    split
    · exact (finished.trans (cancel_eases _ n)).trans (giveBack_eases _)
    · split
      · exact finished.trans (giveBack_eases _)
      · exact .refl c
  · exact .refl c
  · exact .refl c
  · exact .refl c

theorem begin_eases {c : Coordinator} {n : Name} (h : c.executions.get? n = some .spawned) :
    Eases c (c.begin n) := by
  have moved := Table.weigh_set_of_get? (w := Execution.effort) .begun h
  simp only [Execution.effort] at moved
  exact .inr ⟨by simp only [begin, effort, setExecution]; omega, rfl⟩

theorem enter_eases {c : Coordinator} {n : Name} {part : Part} (h : c.part? n = some part) :
    Eases c (c.enter n part) := by
  unfold part? at h
  split at h
  · rename_i found
    cases h
    exact begin_eases found
  · rename_i found
    cases h
    have moved := effort_setExecution .begun found
    simp only [Execution.effort] at moved
    exact .inr ⟨by simp only [enter]; omega, rfl⟩
  · cases h

theorem executorTurn_eases (c : Coordinator) (n : Name) : Eases c (c.executorTurn n) := by
  unfold executorTurn
  split
  · rename_i found
    have moved := effort_setExecution .dropped found
    simp only [Execution.effort] at moved
    exact .inr ⟨by omega, rfl⟩
  · exact .refl c

/-- **No turn adds to the effort left.** -/
theorem turn_eases {ω : Type} (x : Executor ω) (c : Coordinator) (w : ω) (t : Task) :
    Eases c (c.turn x w t).2.1 := by
  unfold turn
  split
  · exact workerTurn_eases c _
  · split
    · rename_i h
      exact enter_eases h
    · exact executorTurn_eases c _

/-! ## Running -/

/-- Takes the next task from the queue and gives it its turn. -/
def advance {ω : Type} (x : Executor ω) (t : Task) (rest : List Task) (c : Coordinator) (w : ω) :
    Coordinator × ω :=
  let (calls, next, w) := { c with ready := rest }.turn x w t
  (settle calls next, w)

theorem advance_eases {ω : Type} (x : Executor ω) (t : Task) (rest : List Task) (c : Coordinator)
    (w : ω) : Eases { c with ready := rest } (c.advance x t rest w).1 :=
  (turn_eases x { c with ready := rest } w t).trans (settle_eases _ _)

/-- **Runs** until no task is ready: every ready task gets its turn, first come first served. -/
def runUntilIdle {ω : Type} (x : Executor ω) (c : Coordinator) (w : ω) : Coordinator × ω :=
  match _h : c.ready with
  | [] => (c, w)
  | t :: rest =>
    let next := c.advance x t rest w
    runUntilIdle x next.1 next.2
termination_by (c.effort, c.ready.length)
decreasing_by
  have same : ({ c with ready := rest } : Coordinator).effort = c.effort := rfl
  rcases advance_eases x t rest c w with less | ⟨le, ready⟩
  · exact Prod.Lex.left _ _ (same ▸ less)
  · rw [same] at le
    rcases Nat.lt_or_eq_of_le le with less | eq
    · exact Prod.Lex.left _ _ less
    · rw [eq, ready]
      exact Prod.Lex.right _ (by simp [_h])

/-- A run stands still when no task is ready. -/
theorem runUntilIdle_of_nil {ω : Type} (x : Executor ω) {c : Coordinator} (w : ω)
    (h : c.ready = []) : c.runUntilIdle x w = (c, w) := by
  rw [runUntilIdle]
  split
  · rfl
  · simp_all

/-- A run goes on with the turn of the task that comes first. -/
theorem runUntilIdle_of_cons {ω : Type} (x : Executor ω) {c : Coordinator} (w : ω) {t : Task}
    {rest : List Task} (h : c.ready = t :: rest) : c.runUntilIdle x w =
      runUntilIdle x (c.advance x t rest w).1 (c.advance x t rest w).2 := by
  rw [runUntilIdle]
  split
  · simp_all
  · simp_all

/-- A run ends with no task ready. -/
theorem isIdle_runUntilIdle {ω : Type} (x : Executor ω) (c : Coordinator) (w : ω) :
    (c.runUntilIdle x w).1.isIdle = true := by
  fun_induction runUntilIdle x c w with
  | case1 c w h => simp [isIdle, h]
  | case2 c w t rest h next ih => exact ih

/-! ## Requests from outside -/

end Coordinator

/-- A **request** from outside the run. -/
inductive Request where
  /-- Start the run. -/
  | start
  /-- Stop the run. -/
  | stop
  /-- Release the execution of a leaf. -/
  | release (step : Name)
deriving Repr, DecidableEq

/-- A request is carried out on the spot and gives no task a turn. -/
def Coordinator.request (c : Coordinator) : Request → Coordinator
  | .start => settle c.startCalls c
  | .stop => settle [.stop] c
  | .release n => c.release n

end StepFlow
