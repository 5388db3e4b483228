import StepFlow.Proofs.Course.Post

/-! # The pool

Permits are neither lost nor made: every permit is free or held by a worker, and while a worker
waits for one none is free. And no task sleeps that has something to do: a worker or an executor
that is **due** stands in the queue of ready tasks.

Main statements: `Permits.shift` and `Alert.shift`, that every move keeps both. -/

namespace StepFlow

open Coordinator

/-! ## Permits -/

/-- How many permits a worker in a stage holds. -/
def Stage.holds : Stage → Nat
  | .granted | .starting | .running => 1
  | .dispatched _ | .queued | .done => 0

/-- The permits of a pool **add up**, with some of them just taken out of it. -/
structure Permits (workers inHand : Nat) (c : Coordinator) : Prop where
  /-- The workers that wait for a permit are those that queue. -/
  waiting : ∀ n, n ∈ c.waiters ↔ c.stages.get? n = some .queued
  /-- No worker waits twice. -/
  nodup_waiters : c.waiters.Nodup
  /-- No leaf has two workers. -/
  nodup_stages : c.stages.names.Nodup
  /-- While a worker waits no permit is free. -/
  scarce : c.waiters ≠ [] → c.permits = 0
  /-- Every permit is free, held by a worker, or just taken out. -/
  total : c.permits + Table.weigh Stage.holds c.stages + inHand = workers

namespace Permits

variable {workers inHand : Nat} {c d : Coordinator} {n : Name} (p : Permits workers inHand c)

include p

theorem congr (stages : d.stages = c.stages) (waiters : d.waiters = c.waiters)
    (permits : d.permits = c.permits) : Permits workers inHand d where
  waiting n := by rw [waiters, stages]; exact p.waiting n
  nodup_waiters := by rw [waiters]; exact p.nodup_waiters
  nodup_stages := by rw [stages]; exact p.nodup_stages
  scarce := by rw [waiters, permits]; exact p.scarce
  total := by rw [permits, stages]; exact p.total

theorem wake (t : Task) : Permits workers inHand (c.wake t) := by
  unfold Coordinator.wake
  split
  · exact p
  · exact p.congr rfl rfl rfl

theorem setExecution (e : Execution) : Permits workers inHand (c.setExecution n e) :=
  p.congr rfl rfl rfl

theorem cancel : Permits workers inHand (c.cancel n) := by
  unfold Coordinator.cancel
  split
  · exact (p.setExecution _).wake _
  · exact (p.setExecution _).wake _
  · exact (p.setExecution _).wake _
  · exact p

/-- A worker that neither was queued nor queues now moves on, and takes or gives a permit. -/
theorem setStage {s : Stage} {inHand' : Nat} (was : c.stages.get? n ≠ some .queued)
    (now : s ≠ .queued)
    (balance : s.holds + inHand' = c.stages.weightAt Stage.holds n + inHand) :
    Permits workers inHand' (c.setStage n s) where
  waiting k := by
    rw [show (c.setStage n s).waiters = c.waiters from rfl, p.waiting, Coordinator.setStage,
      Table.get?_set]
    split
    · rename_i same
      subst same
      exact iff_of_false was fun h => now (Option.some.inj h)
    · exact Iff.rfl
  nodup_waiters := p.nodup_waiters
  nodup_stages := Table.nodup_names_set p.nodup_stages n s
  scarce := p.scarce
  total := by
    have moved := Table.weigh_set Stage.holds c.stages n s
    have before := p.total
    simp only [Coordinator.setStage]
    omega

omit p in
/-- A free permit is taken. -/
theorem take (p : Permits workers 0 c) (free : c.permits > 0) :
    Permits workers 1 { c with permits := c.permits - 1 } where
  waiting := p.waiting
  nodup_waiters := p.nodup_waiters
  nodup_stages := p.nodup_stages
  scarce waits := by
    have := p.scarce waits
    omega
  total := by
    have := p.total
    simp only
    omega

omit p in
/-- A worker waits for a permit. -/
theorem queue (p : Permits workers 0 c) {skip : Bool}
    (here : c.stages.get? n = some (.dispatched skip)) (none : c.permits = 0) :
    Permits workers 0 ({ c with waiters := c.waiters ++ [n] }.setStage n .queued) where
  waiting k := by
    simp only [Coordinator.setStage, Table.get?_set, List.mem_append, List.mem_singleton, p.waiting]
    by_cases same : n = k
    · simp [same]
    · simp [same, Ne.symm same]
  nodup_waiters := by
    refine List.nodup_append.2 ⟨p.nodup_waiters, by simp, ?_⟩
    rintro a ha b hb rfl
    -- those who wait are queued, and this worker was not
    rw [List.mem_singleton.1 hb, p.waiting, here] at ha
    cases ha
  nodup_stages := Table.nodup_names_set p.nodup_stages n _
  scarce _ := none
  total := by
    have moved := Table.weigh_set Stage.holds c.stages n .queued
    rw [Table.weightAt_of_get? here] at moved
    have before := p.total
    simp only [Coordinator.setStage, Stage.holds] at moved ⊢
    omega

omit p in
/-- A worker waits no longer for a permit. -/
theorem unqueue (p : Permits workers 0 c) (here : c.stages.get? n = some .queued) :
    Permits workers 0 ({ c with waiters := c.waiters.erase n }.setStage n .done) where
  waiting k := by
    simp only [Coordinator.setStage, Table.get?_set, p.nodup_waiters.mem_erase_iff, p.waiting]
    by_cases same : n = k
    · simp [same]
    · simp [same, Ne.symm same]
  nodup_waiters := p.nodup_waiters.erase n
  nodup_stages := Table.nodup_names_set p.nodup_stages n _
  scarce waits := p.scarce fun none => by simp [Coordinator.setStage, none] at waits
  total := by
    have moved := Table.weigh_set Stage.holds c.stages n .done
    rw [Table.weightAt_of_get? here] at moved
    have before := p.total
    simp only [Coordinator.setStage, Stage.holds] at moved ⊢
    omega

omit p in
/-- A permit that was taken out is handed to the first worker that waits, or is free again. -/
theorem giveBack (p : Permits workers 1 c) : Permits workers 0 c.giveBack := by
  unfold Coordinator.giveBack
  split
  · rename_i none
    exact
      { waiting := p.waiting
        nodup_waiters := p.nodup_waiters
        nodup_stages := p.nodup_stages
        scarce := fun waits => absurd none waits
        total := by
          have := p.total
          simp only
          omega }
  · -- the first worker that waits is queued, so it takes the permit over
    rename_i n rest waiters
    have queued : c.stages.get? n = some .queued :=
      (p.waiting n).1 (by rw [waiters]; exact List.mem_cons_self)
    obtain ⟨fresh, nodup⟩ := List.nodup_cons.1 (waiters ▸ p.nodup_waiters)
    unfold Coordinator.grant
    rw [if_pos queued]
    refine wake (c := { c with waiters := rest, stages := c.stages.set n .granted }) ?_ _
    exact
      { waiting := fun k => by
          have before := p.waiting k
          rw [waiters, List.mem_cons] at before
          simp only [Table.get?_set]
          by_cases same : n = k
          · subst same
            simp [fresh]
          · rw [if_neg same, ← before]
            simp [Ne.symm same]
        nodup_waiters := nodup
        nodup_stages := Table.nodup_names_set p.nodup_stages n _
        scarce := fun _ => p.scarce (by rw [waiters]; exact List.cons_ne_nil n rest)
        total := by
          have moved := Table.weigh_set Stage.holds c.stages n .granted
          rw [Table.weightAt_of_get? queued] at moved
          have before := p.total
          simp only [Stage.holds] at moved ⊢
          omega }

omit p in
theorem dispatch (p : Permits workers 0 c) (skip : Bool) (here : c.stages.get? n = none) :
    Permits workers 0 (c.dispatch n skip) := by
  refine wake (c := c.setStage n (.dispatched skip)) (p.setStage ?_ ?_ ?_) _
  · rw [here]
    exact fun h => by cases h
  · exact fun h => by cases h
  · rw [Table.weightAt, here]
    rfl

omit p in
/-- A worker that holds a permit is done and gives it back. -/
theorem finish (p : Permits workers 0 c) {s : Stage} (here : c.stages.get? n = some s)
    (holds : s.holds = 1) : Permits workers 1 (c.setStage n .done) := by
  refine p.setStage ?_ ?_ ?_
  · rw [here]
    rintro ⟨⟩
    cases holds
  · exact fun h => by cases h
  · rw [Table.weightAt_of_get? here, holds]
    rfl

omit p in
/-- A worker that holds no permit, and waits for none, is done. -/
theorem leave (p : Permits workers 0 c) {skip : Bool}
    (here : c.stages.get? n = some (.dispatched skip)) :
    Permits workers 0 (c.setStage n .done) := by
  refine p.setStage ?_ ?_ ?_
  · rw [here]
    exact fun h => by cases h
  · exact fun h => by cases h
  · rw [Table.weightAt_of_get? here]
    rfl

omit p in
/-- A worker that holds a permit goes on with it. -/
theorem keep (p : Permits workers 0 c) {s s' : Stage} (here : c.stages.get? n = some s)
    (holds : s.holds = 1) (holds' : s'.holds = 1) : Permits workers 0 (c.setStage n s') := by
  refine p.setStage ?_ ?_ ?_
  · rw [here]
    rintro ⟨⟩
    cases holds
  · rintro rfl
    cases holds'
  · rw [Table.weightAt_of_get? here, holds, holds']

/-! ### Moves -/

omit p

theorem workerTurn (p : Permits workers 0 c) {calls : List Call} (turn : WorkerTurn c n calls d) :
    Permits workers 0 d := by
  cases turn with
  | rest => exact p
  | skip here | leave here => exact p.leave here
  | take here running free =>
    refine (p.take free).setStage ?_ ?_ ?_
    · rw [here]
      exact fun h => by cases h
    · exact fun h => by cases h
    · rw [Table.weightAt_of_get? here]
      rfl
  | queue here running none => exact p.queue here none
  | unqueue here => exact p.unqueue here
  | decline here | finish here => exact (p.finish here rfl).giveBack
  | start here => exact p.keep here rfl rfl
  | cut here => exact (p.finish here rfl).cancel.giveBack

theorem executorTurn (p : Permits workers 0 c) {part : Option Part}
    (turn : ExecutorTurn c n part d) : Permits workers 0 d := by
  cases turn with
  | rest => exact p
  | begin | goOn | drop => exact p.congr rfl rfl rfl

/-- **Every shift keeps the permits.** -/
theorem shift {m m' : Moment} (p : Permits workers 0 m.run) (s : Shift m m')
    (free : ∀ n, m.status n = .waiting → m.run.stages.get? n = none) :
    Permits workers 0 m'.run := by
  cases s with
  | keep _ _ _ _ _ same => exact p.congr same.stages same.waiters same.permits
  | @dispatch n t _ _ _ _ waits _ run' =>
    rw [run']
    have same : Permits workers 0 { m.run with statuses := t } := p.congr rfl rfl rfl
    exact same.dispatch _ (free n waits)
  | @worker n _ _ _ turn =>
    have taken : Permits workers 0 { m.run with ready := m.run.ready.erase (.worker n) } :=
      p.congr rfl rfl rfl
    exact taken.workerTurn turn
  | @executor n _ _ _ _ _ _ turn =>
    have taken : Permits workers 0 { m.run with ready := m.run.ready.erase (.executor n) } :=
      p.congr rfl rfl rfl
    exact taken.executorTurn turn
  | launch _ _ here _ _ run' =>
    rw [run']
    exact ((p.keep here rfl rfl).setExecution _).wake _
  | abandon _ _ here _ _ run' =>
    rw [run']
    exact (p.finish here rfl).giveBack
  | ended _ _ _ _ run' =>
    rw [run']
    exact (p.setExecution _).wake _
  | resume _ _ _ _ _ same => exact p.congr same.stages same.waiters same.permits
  | stop _ _ _ _ run' =>
    rw [run']
    exact p.congr rfl rfl rfl

theorem initial (f : Flow) (workers : Nat) (registry : Registry) :
    Permits workers 0 (Moment.initial f workers registry).run where
  waiting n := by
    constructor <;> intro h <;> cases h
  nodup_waiters := List.nodup_nil
  nodup_stages := List.nodup_nil
  scarce waits := absurd rfl waits
  total := rfl

end Permits

/-! ## Tasks that are due -/

/-- A run is **alert** when every task that is due is ready. -/
structure Alert (c : Coordinator) : Prop where
  /-- Workers that are due are ready. -/
  worker : ∀ n, (c.post n).workerDue c.stopped = true → .worker n ∈ c.ready
  /-- Executors that are due are ready. -/
  executor : ∀ n e, c.executions.get? n = some e → e.isDue = true → .executor n ∈ c.ready

namespace Coordinator

variable {c : Coordinator} {n k : Name}

theorem mem_ready_cancel {t : Task} (h : t ∈ c.ready) : t ∈ (c.cancel n).ready := by
  unfold cancel
  split
  · exact mem_ready_wake.2 (.inl h)
  · exact mem_ready_wake.2 (.inl h)
  · exact mem_ready_wake.2 (.inl h)
  · exact h

/-- An execution that is cut short is ready. -/
theorem ready_cancel {e : Execution} (h : (c.cancel n).executions.get? n = some e) :
    .executor n ∈ (c.cancel n).ready ∨ c.executions.get? n = some e := by
  unfold cancel at h ⊢
  split
  · exact .inl (mem_ready_wake.2 (.inr rfl))
  · exact .inl (mem_ready_wake.2 (.inr rfl))
  · exact .inl (mem_ready_wake.2 (.inr rfl))
  · rename_i notSpawned notBegun notResumed
    refine .inr ?_
    split at h
    · rename_i h'; exact absurd h' notSpawned
    · rename_i h'; exact absurd h' notBegun
    · rename_i h'; exact absurd h' notResumed
    · exact h

end Coordinator

namespace Alert

variable {c d : Coordinator} {n : Name} (a : Alert c)

include a

theorem of_eq (post : ∀ k, d.post k = c.post k) (stopped : d.stopped = c.stopped)
    (ready : d.ready = c.ready) : Alert d where
  worker k hk := by rw [post, stopped] at hk; rw [ready]; exact a.worker k hk
  executor k e he := by
    rw [show d.executions.get? k = c.executions.get? k from congrArg Prod.snd (post k)] at he
    rw [ready]
    exact a.executor k e he

/-- Nothing but the tasks of one leaf has changed. -/
theorem at_leaf (post : ∀ k, n ≠ k → d.post k = c.post k) (stopped : d.stopped = c.stopped)
    (workers : ∀ k, n ≠ k → .worker k ∈ c.ready → .worker k ∈ d.ready)
    (executors : ∀ k, n ≠ k → .executor k ∈ c.ready → .executor k ∈ d.ready)
    (worker : (d.post n).workerDue d.stopped = true → .worker n ∈ d.ready)
    (executor : ∀ e, d.executions.get? n = some e → e.isDue = true → .executor n ∈ d.ready) :
    Alert d where
  worker k hk := by
    by_cases same : n = k
    · subst same
      exact worker hk
    · rw [post k same, stopped] at hk
      exact workers k same (a.worker k hk)
  executor k e he := by
    by_cases same : n = k
    · subst same
      exact executor e he
    · rw [show d.executions.get? k = c.executions.get? k from congrArg Prod.snd (post k same)] at he
      exact fun due => executors k same (a.executor k e he due)

theorem giveBack : Alert c.giveBack := by
  unfold Coordinator.giveBack
  split
  · exact a.of_eq (fun _ => rfl) rfl rfl
  · rename_i n rest _
    unfold Coordinator.grant
    split
    · refine a.at_leaf (n := n) (fun k hk => ?_) ?_ (fun k _ => ?_) (fun k _ => ?_) ?_ ?_
      · rw [Coordinator.post_wake]
        exact (Coordinator.post_setStage c n k .granted).trans (if_neg hk)
      · rw [Coordinator.stopped_wake]
      · exact fun h => mem_ready_wake.2 (.inl h)
      · exact fun h => mem_ready_wake.2 (.inl h)
      · exact fun _ => mem_ready_wake.2 (.inr rfl)
      · intro e he due
        rw [Coordinator.executions_wake] at he
        exact mem_ready_wake.2 (.inl (a.executor n e he due))
    · exact a.of_eq (fun _ => rfl) rfl rfl

theorem dispatch (skip : Bool) : Alert (c.dispatch n skip) := by
  refine a.at_leaf (n := n) (fun k hk => ?_) ?_ (fun k _ => ?_) (fun k _ => ?_) ?_ ?_
  · rw [Coordinator.post_dispatch, if_neg hk]
  · exact Coordinator.stopped_dispatch c n skip
  · exact fun h => mem_ready_wake.2 (.inl h)
  · exact fun h => mem_ready_wake.2 (.inl h)
  · exact fun _ => mem_ready_wake.2 (.inr rfl)
  · intro e he due
    rw [Coordinator.dispatch, Coordinator.executions_wake] at he
    exact mem_ready_wake.2 (.inl (a.executor n e he due))

/-! ### Turns of workers -/

section Turns

variable {b : Coordinator} (post : ∀ k, b.post k = c.post k) (stopped : b.stopped = c.stopped)
  (ready : b.ready = c.ready.erase (.worker n))

include post stopped ready

/-- A worker that is not due after its turn. -/
private theorem stay (idle : (c.post n).workerDue c.stopped = false) : Alert b := by
  refine a.at_leaf (n := n) (fun k _ => post k) stopped (fun k hk h => ?_) (fun k _ h => ?_) ?_ ?_
  · rw [ready]
    exact (List.mem_erase_of_ne (by simpa using Ne.symm hk)).2 h
  · rw [ready]
    exact (List.mem_erase_of_ne (by simp)).2 h
  · intro due
    rw [post, stopped, idle] at due
    cases due
  · intro e he due
    rw [show b.executions.get? n = c.executions.get? n from congrArg Prod.snd (post n)] at he
    rw [ready]
    exact (List.mem_erase_of_ne (by simp)).2 (a.executor n e he due)

/-- A worker that has moved to a stage in which it is not due. -/
private theorem setStage {s : Stage}
    (idle : Post.workerDue c.stopped (some s, c.executions.get? n) = false) :
    Alert (b.setStage n s) := by
  have execution : b.executions.get? n = c.executions.get? n := congrArg Prod.snd (post n)
  refine a.at_leaf (n := n) (fun k hk => ?_) stopped (fun k hk h => ?_) (fun k _ h => ?_) ?_ ?_
  · rw [Coordinator.post_setStage, if_neg hk, post]
  · rw [show (b.setStage n s).ready = b.ready from rfl, ready]
    exact (List.mem_erase_of_ne (by simpa using Ne.symm hk)).2 h
  · rw [show (b.setStage n s).ready = b.ready from rfl, ready]
    exact (List.mem_erase_of_ne (by simp)).2 h
  · intro due
    rw [Coordinator.post_setStage, if_pos rfl, execution, Coordinator.stopped_setStage, stopped,
      idle] at due
    cases due
  · intro e he due
    rw [show (b.setStage n s).ready = b.ready from rfl, ready]
    rw [show (b.setStage n s).executions.get? n = c.executions.get? n from execution] at he
    exact (List.mem_erase_of_ne (by simp)).2 (a.executor n e he due)

/-- A worker that is done and has cut its execution short. -/
private theorem cut : Alert ((b.setStage n .done).cancel n) := by
  have execution : b.executions.get? n = c.executions.get? n := congrArg Prod.snd (post n)
  refine a.at_leaf (n := n) (fun k hk => ?_) ?_ (fun k hk h => ?_) (fun k _ h => ?_) ?_ ?_
  · rw [Coordinator.post_cancel, if_neg hk, Coordinator.post_setStage, if_neg hk, post]
  · rw [Coordinator.stopped_cancel, Coordinator.stopped_setStage, stopped]
  · refine Coordinator.mem_ready_cancel ?_
    rw [show (b.setStage n .done).ready = b.ready from rfl, ready]
    exact (List.mem_erase_of_ne (by simpa using Ne.symm hk)).2 h
  · refine Coordinator.mem_ready_cancel ?_
    rw [show (b.setStage n .done).ready = b.ready from rfl, ready]
    exact (List.mem_erase_of_ne (by simp)).2 h
  · intro due
    rw [Coordinator.post_cancel, if_pos rfl] at due
    simp [Coordinator.setStage, Post.workerDue] at due
  · intro e he due
    refine (Coordinator.ready_cancel he).elim id fun before => Coordinator.mem_ready_cancel ?_
    rw [show (b.setStage n .done).ready = b.ready from rfl, ready]
    rw [show (b.setStage n .done).executions.get? n = c.executions.get? n from execution] at before
    exact (List.mem_erase_of_ne (by simp)).2 (a.executor n e before due)

end Turns

/-- The turn of a worker leaves it in a stage in which it is not due. -/
theorem workerTurn {calls : List Call} {d : Coordinator}
    (turn : WorkerTurn { c with ready := c.ready.erase (.worker n) } n calls d) : Alert d := by
  have moves := fun (s : Stage) idle => a.setStage (n := n) (s := s)
    (b := { c with ready := c.ready.erase (.worker n) }) (fun _ => rfl) rfl rfl idle
  have done : ∀ e, Post.workerDue c.stopped (some .done, e) = false := fun e => rfl
  cases turn with
  | rest idle => exact a.stay (n := n) (fun _ => rfl) rfl rfl idle
  | skip | leave => exact moves .done (done _)
  | take =>
    exact a.setStage (n := n) (s := .starting)
      (b := { c with ready := c.ready.erase (.worker n), permits := c.permits - 1 })
      (fun _ => rfl) rfl rfl rfl
  | queue _ running =>
    exact a.setStage (n := n) (s := .queued)
      (b := { c with ready := c.ready.erase (.worker n), waiters := c.waiters ++ [n] })
      (fun _ => rfl) rfl rfl running
  | unqueue =>
    exact a.setStage (n := n) (s := .done)
      (b := { c with ready := c.ready.erase (.worker n), waiters := c.waiters.erase n })
      (fun _ => rfl) rfl rfl (done _)
  | decline | finish => exact (moves .done (done _)).giveBack
  | start => exact moves .starting rfl
  | cut =>
    exact (a.cut (n := n) (b := { c with ready := c.ready.erase (.worker n) }) (fun _ => rfl) rfl
      rfl).giveBack

/-! ### Turns of executors, bursts and launches -/

omit a in
/-- As long as an execution has not ended by itself it makes no difference to its worker. -/
private theorem workerDue_eq {stopped : Bool} {s : Option Stage} {e : Execution} (e' : Execution)
    (h : ∀ o, e ≠ .ended o) (h' : ∀ o, e' ≠ .ended o) :
    Post.workerDue stopped (s, some e) = Post.workerDue stopped (s, some e') := by
  cases s with
  | none => rfl
  | some s =>
    cases s with
    | running =>
      cases e with
      | ended o => exact absurd rfl (h o)
      | _ =>
        cases e' with
        | ended o => exact absurd rfl (h' o)
        | _ => rfl
    | _ => rfl

/-- An execution that is not due after a turn of its executor. -/
private theorem setExecution {b : Coordinator} (e' : Execution) (post : ∀ k, b.post k = c.post k)
    (stopped : b.stopped = c.stopped) (ready : b.ready = c.ready.erase (.executor n))
    {e : Execution} (here : c.executions.get? n = some e) (running : ∀ o, e ≠ .ended o)
    (running' : ∀ o, e' ≠ .ended o) (idle : e'.isDue = false) : Alert (b.setExecution n e') := by
  have stage : b.stages.get? n = c.stages.get? n := congrArg Prod.fst (post n)
  refine a.at_leaf (n := n) (fun k hk => ?_) stopped (fun k _ h => ?_) (fun k hk h => ?_) ?_ ?_
  · rw [Coordinator.post_setExecution, if_neg hk, post]
  · rw [show (b.setExecution n e').ready = b.ready from rfl, ready]
    exact (List.mem_erase_of_ne (by simp)).2 h
  · rw [show (b.setExecution n e').ready = b.ready from rfl, ready]
    exact (List.mem_erase_of_ne (by simpa using Ne.symm hk)).2 h
  · intro due
    rw [Coordinator.post_setExecution, if_pos rfl, stage, Coordinator.stopped_setExecution, stopped,
      workerDue_eq _ running' running, ← here] at due
    rw [show (b.setExecution n e').ready = b.ready from rfl, ready]
    exact (List.mem_erase_of_ne (by simp)).2 (a.worker n due)
  · intro d hd due
    have same : d = e' := by
      simp only [Coordinator.setExecution, Table.get?_set, if_true] at hd
      exact (Option.some.inj hd).symm
    rw [same, idle] at due
    cases due

/-- The turn of an executor leaves its execution in a state in which it is not due. -/
theorem executorTurn {part : Option Part} {d : Coordinator}
    (turn : ExecutorTurn { c with ready := c.ready.erase (.executor n) } n part d) : Alert d := by
  cases turn with
  | rest idle =>
    refine a.at_leaf (n := n) (fun _ _ => rfl) rfl (fun k _ h => ?_) (fun k hk h => ?_)
      (fun due => ?_) fun e he due => ?_
    · exact (List.mem_erase_of_ne (by simp)).2 h
    · exact (List.mem_erase_of_ne (by simpa using Ne.symm hk)).2 h
    · exact (List.mem_erase_of_ne (by simp)).2 (a.worker n due)
    · rw [idle e he] at due
      cases due
  | begin here =>
    have entered := a.setExecution
      (b := { c with ready := c.ready.erase (.executor n), invoked := n :: c.invoked }) .begun
      (fun _ => rfl) rfl rfl here (fun o h => by cases h) (fun o h => by cases h) rfl
    exact entered.of_eq (fun _ => rfl) rfl rfl
  | goOn here =>
    exact a.setExecution (b := { c with ready := c.ready.erase (.executor n) }) .begun
      (fun _ => rfl) rfl rfl here (fun o h => by cases h) (fun o h => by cases h) rfl
  | drop here =>
    exact a.setExecution (b := { c with ready := c.ready.erase (.executor n) }) _ (fun _ => rfl) rfl
      rfl here (fun o h => by cases h) (fun o h => by cases h) rfl

/-- An execution that waits is released, and its executor is woken. -/
private theorem resume {d : Coordinator} (here : c.executions.get? n = some .begun)
    (post : ∀ k, d.post k = (c.setExecution n .resumed).post k) (stopped : d.stopped = c.stopped)
    (woken : ∀ t, t ∈ d.ready ↔ t ∈ c.ready ∨ t = .executor n) : Alert d := by
  have ready := fun t h => (woken t).2 (.inl h)
  refine a.at_leaf (n := n) (fun k hk => ?_) stopped (fun k _ => ready _) (fun k _ => ready _) ?_ ?_
  · rw [post, post_setExecution, if_neg hk]
  · intro due
    rw [post, post_setExecution, if_pos rfl, stopped,
      workerDue_eq .begun (fun o h => by cases h) (fun o h => by cases h), ← here] at due
    exact ready _ (a.worker n due)
  · exact fun _ _ _ => (woken _).2 (.inr rfl)

/-- An execution ends, and its worker is woken. -/
private theorem ended (o : Outcome) : Alert ((c.setExecution n (.ended o)).wake (.worker n)) := by
  refine a.at_leaf (n := n) (fun k hk => ?_) ?_ (fun k _ => ?_) (fun k _ => ?_) ?_ ?_
  · rw [post_wake, post_setExecution, if_neg hk]
  · rw [stopped_wake, stopped_setExecution]
  · exact fun h => mem_ready_wake.2 (.inl h)
  · exact fun h => mem_ready_wake.2 (.inl h)
  · exact fun _ => mem_ready_wake.2 (.inr rfl)
  · intro e he due
    rw [executions_wake] at he
    have same : e = .ended o := by
      simp only [Coordinator.setExecution, Table.get?_set, if_true] at he
      exact (Option.some.inj he).symm
    rw [same] at due
    cases due

/-- A worker launches its executor, which is woken. -/
private theorem launch (running : c.stopped = false) :
    Alert (((c.setStage n .running).setExecution n .spawned).wake (.executor n)) := by
  refine a.at_leaf (n := n) (fun k hk => ?_) ?_ (fun k _ => ?_) (fun k _ => ?_) ?_ ?_
  · rw [post_wake, post_setExecution, if_neg hk, post_setStage, if_neg hk]
  · rw [stopped_wake, stopped_setExecution, stopped_setStage]
  · exact fun h => mem_ready_wake.2 (.inl h)
  · exact fun h => mem_ready_wake.2 (.inl h)
  · intro due
    rw [post_wake, post_setExecution, if_pos rfl, stopped_wake, stopped_setExecution,
      stopped_setStage, running] at due
    simp only [Coordinator.setStage, Table.get?_set, if_true] at due
    cases due
  · exact fun _ _ _ => mem_ready_wake.2 (.inr rfl)

/-- A worker gives up its launch. -/
private theorem abandon : Alert (c.setStage n .done).giveBack := by
  refine giveBack
    (at_leaf a (n := n) (fun k hk => ?_) rfl (fun k _ => id) (fun k _ => id) ?_ ?_)
  · rw [post_setStage, if_neg hk]
  · intro due
    rw [post_setStage, if_pos rfl] at due
    cases due
  · exact a.executor n

/-! ### Moves -/

omit a in
/-- A worker that a stop gives something to do heeds the stop. -/
private theorem heeds_of_due {p : Post} (due : p.workerDue true = true)
    (before : p.workerDue false ≠ true) : ∃ s, p.1 = some s ∧ s.heedsStop = true := by
  obtain ⟨stage, execution⟩ := p
  cases stage with
  | none => cases due
  | some s =>
    cases s with
    | dispatched => exact absurd rfl before
    | starting | done => cases due
    | queued | granted | running => exact ⟨_, rfl, rfl⟩

/-- A stop wakes up all that sleep. -/
private theorem stop (running : c.stopped = false)
    (known : ∀ n, (c.stages.get? n).isSome = true → n ∈ c.flow.names) :
    Alert { c with stopped := true, ready := c.ready ++ c.sleepers } where
  worker n due := by
    rw [List.mem_append]
    by_cases before : (c.post n).workerDue c.stopped = true
    · exact .inl (a.worker n before)
    · by_cases isReady : Task.worker n ∈ c.ready
      · exact .inl isReady
      · -- a worker that becomes due by the stop and is not ready is among the sleepers
        rw [running] at before
        obtain ⟨s, here, heeds⟩ := heeds_of_due due before
        have here : c.stages.get? n = some s := here
        refine .inr ?_
        simp only [sleepers, List.mem_filter, List.mem_map, decide_eq_true_eq]
        refine ⟨⟨n, ⟨known n (by rw [here]; rfl), ?_⟩, rfl⟩, isReady⟩
        rw [here]
        exact heeds
  executor n e he due := List.mem_append_left _ (a.executor n e he due)

omit a in
/-- **Every shift keeps a run alert.** -/
theorem shift {m m' : Moment} (a : Alert m.run) (s : Shift m m')
    (known : ∀ n, (m.run.stages.get? n).isSome = true → n ∈ m.run.flow.names) : Alert m'.run := by
  cases s with
  | keep _ _ _ _ _ same => exact a.of_eq same.post same.stopped same.ready
  | @dispatch n t _ _ _ _ _ _ run' =>
    rw [run']
    have same : Alert { m.run with statuses := t } := a.of_eq (fun _ => rfl) rfl rfl
    exact same.dispatch _
  | worker _ _ _ turn => exact a.workerTurn turn
  | executor _ _ _ _ turn => exact a.executorTurn turn
  | launch _ _ _ running _ run' =>
    rw [run']
    exact a.launch running
  | abandon _ _ _ _ _ run' =>
    rw [run']
    exact a.abandon
  | ended _ _ _ _ run' =>
    rw [run']
    exact a.ended _
  | resume _ _ here _ woken same => exact a.resume here same.post same.stopped woken
  | stop _ _ running _ run' =>
    rw [run']
    exact a.stop running known

omit a in
theorem initial (f : Flow) (workers : Nat) (registry : Registry) :
    Alert (Moment.initial f workers registry).run where
  worker n h := by cases h
  executor n e he := by cases he

end Alert

end StepFlow
