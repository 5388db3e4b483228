import StepFlow.Proofs.Course.Setup

/-! # Never more executions than workers

The **crew** are the executions that may still be at work. While a run is not stopped, each of them
has a worker that holds a permit, so the permits bound their number. A worker that cuts its
execution short gives its permit back at once, before the execution is dropped, so after a stop a
permit may be free although its former execution has not gone yet. But after a stop nothing is
spawned any more, and the crew can only shrink.

Main statement: `Setup.manned`, that the crew of a run never outnumbers its workers. -/

namespace StepFlow

open Coordinator

/-- Whether an execution belongs to the crew, as a number. -/
def Execution.crew : Execution → Nat
  | .spawned | .begun | .resumed | .cancelled true => 1
  | .ended _ | .cancelled false | .dropped => 0

/-- Whether an execution shows that its executor has begun. -/
def Execution.isInvoked : Execution → Bool
  | .begun | .resumed | .ended _ | .cancelled true => true
  | .spawned | .cancelled false | .dropped => false

/-! ## One execution at a time -/

namespace Coordinator

/-- From one state to a later one **at most one execution has moved**, and if it shows afterwards
that its executor has begun, then it did so before or the executor has begun by then. -/
def MovesOne (c d : Coordinator) : Prop :=
  d.executions = c.executions ∨ ∃ n e, d.executions = c.executions.set n e ∧
    (e.isInvoked = true →
      n ∈ d.invoked ∨ ∃ old, c.executions.get? n = some old ∧ old.isInvoked = true)

variable {c d : Coordinator} {n : Name}

@[simp] theorem executions_giveBack : c.giveBack.executions = c.executions := by
  unfold giveBack
  split
  · rfl
  · unfold grant
    split
    · rw [executions_wake]
    · rfl

/-- What is cut short has begun only if it had begun. -/
theorem movesOne_cancel (c : Coordinator) (n : Name) : MovesOne c (c.cancel n) := by
  unfold cancel
  split
  · exact .inr ⟨n, _, executions_wake _ _, fun begun => by cases begun⟩
  · rename_i here
    exact .inr ⟨n, _, executions_wake _ _, fun _ => .inr ⟨_, here, rfl⟩⟩
  · rename_i here
    exact .inr ⟨n, _, executions_wake _ _, fun _ => .inr ⟨_, here, rfl⟩⟩
  · exact .inl rfl

theorem WorkerTurn.movesOne {calls : List Call} (turn : WorkerTurn c n calls d) : MovesOne c d := by
  cases turn with
  | rest | skip | leave | take | queue | unqueue | start => exact .inl rfl
  | decline | finish => exact .inl (executions_giveBack)
  | cut =>
    rcases movesOne_cancel (c.setStage n .done) n with same | ⟨k, e, moved, begun⟩
    · exact .inl (executions_giveBack.trans same)
    · exact .inr ⟨k, e, executions_giveBack.trans moved, by rwa [invoked_giveBack]⟩

theorem ExecutorTurn.movesOne {part : Option Part} (turn : ExecutorTurn c n part d) :
    MovesOne c d := by
  cases turn with
  | rest => exact .inl rfl
  | begin => exact .inr ⟨n, .begun, rfl, fun _ => .inl List.mem_cons_self⟩
  | goOn here => exact .inr ⟨n, .begun, rfl, fun _ => .inr ⟨_, here, rfl⟩⟩
  | drop => exact .inr ⟨n, .dropped, rfl, fun begun => by cases begun⟩

end Coordinator

/-- **A shift moves at most one execution.** -/
theorem Shift.movesOne {m m' : Moment} (s : Shift m m') : MovesOne m.run m'.run := by
  cases s with
  | keep _ _ _ _ _ same => exact .inl same.executions
  | dispatch _ _ _ _ run' => exact .inl (by rw [run', Coordinator.dispatch, executions_wake])
  | worker _ _ _ turn => exact turn.movesOne
  | executor _ _ _ _ turn => exact turn.movesOne
  | @launch n _ _ _ _ _ _ run' =>
    exact .inr ⟨n, .spawned, by rw [run', executions_wake]; rfl, fun begun => by cases begun⟩
  | abandon _ _ _ _ _ run' => exact .inl (by rw [run', executions_giveBack]; rfl)
  | @ended n o _ _ _ here _ run' =>
    exact .inr ⟨n, .ended o, by rw [run', executions_wake]; rfl, fun _ => .inr ⟨_, here, rfl⟩⟩
  | @resume n _ _ _ here _ _ same =>
    exact .inr ⟨n, .resumed, same.executions, fun _ => .inr ⟨_, here, rfl⟩⟩
  | stop _ _ _ _ run' => exact .inl (by rw [run'])

/-! ## The crew and the permits -/

namespace Post.Step

variable {order : Option Bool} {p q : Post}

/-- Nothing is cut short unless the run is stopped. -/
theorem uncut (h : Step false order p q) {begun : Bool} (cut : q.2 = some (.cancelled begun)) :
    p.2 = some (.cancelled begun) := by
  cases h with
  | cut _ stopped => cases stopped
  | launch | begin | resume | goOn | done | drop | finish => cases cut
  | stay | dispatch | skip | leave | queue | grant | start => exact cut

/-- When the run is stopped nobody joins the crew. -/
theorem crew_le (h : Step true order p q) :
    (q.2.map Execution.crew).getD 0 ≤ (p.2.map Execution.crew).getD 0 := by
  cases h with
  | launch _ running => cases running
  | cut e =>
    cases e with
    | none => exact Nat.le_refl _
    | some e =>
      cases e with
      | spawned => exact Nat.zero_le _
      | begun | resumed | ended | cancelled | dropped => exact Nat.le_refl _
  | done | drop => exact Nat.zero_le _
  | stay | dispatch | skip | leave | queue | grant | start | finish | begin | resume | goOn =>
    exact Nat.le_refl _

end Post.Step

/-- Where nothing is cut short, whoever belongs to the crew has a worker with a permit. -/
theorem Post.crew_le_holds {s : Option Stage} {e : Option Execution}
    (fits : Post.fits (s, e) = true) (uncut : ∀ begun, e ≠ some (.cancelled begun)) :
    (e.map Execution.crew).getD 0 ≤ (s.map Stage.holds).getD 0 := by
  cases e with
  | none => exact Nat.zero_le _
  | some e =>
    cases live : e.isLive with
    | true =>
      rw [eq_running_of_fits fits live]
      cases e with
      | spawned | begun | resumed => exact Nat.le_refl 1
      | ended | cancelled | dropped => cases live
    | false =>
      cases e with
      | spawned | begun | resumed => cases live
      | ended | dropped => exact Nat.zero_le _
      | cancelled begun => exact absurd rfl (uncut begun)

/-- A run is **manned** when its crew does not outnumber its workers. -/
structure Manned (workers : Nat) (c : Coordinator) : Prop where
  /-- No leaf has two executions. -/
  nodup : c.executions.names.Nodup
  /-- The executor of an execution that shows it has begun. -/
  invoked : ∀ n e, c.executions.get? n = some e → e.isInvoked = true → n ∈ c.invoked
  /-- Only a stop cuts an execution short. -/
  uncut : c.stopped = false → ∀ n begun, c.executions.get? n ≠ some (.cancelled begun)
  /-- There are at least as many workers as members of the crew. -/
  crew : c.executions.weigh Execution.crew ≤ workers

namespace Manned

variable {workers : Nat} {m m' : Moment}

/-- **Every shift leaves a run manned.** -/
theorem shift (c : Manned workers m.run) (s : Shift m m')
    (step : ∀ n, Post.Step m.run.stopped (m.order? n) (m.run.post n) (m'.run.post n))
    (fits : ∀ n, (m'.run.post n).fits = true) (permits : Permits workers 0 m'.run) :
    Manned workers m'.run := by
  have nodup : m'.run.executions.names.Nodup := by
    rcases s.movesOne with same | ⟨n, e, moved, -⟩
    · rw [same]
      exact c.nodup
    · rw [moved]
      exact Table.nodup_names_set c.nodup n e
  have kept : ∀ n ∈ m.run.invoked, n ∈ m'.run.invoked := by
    intro n hn
    rcases s.invoked with same | ⟨-, k, more, -⟩
    · rw [same]
      exact hn
    · rw [more]
      exact List.mem_cons_of_mem k hn
  -- nothing is cut short in the move that stops the run either
  have uncut : m.run.stopped = false → ∀ n begun,
      m'.run.executions.get? n ≠ some (.cancelled begun) := by
    intro running n begun cut
    have before := step n
    rw [running] at before
    exact c.uncut running n begun (before.uncut cut)
  refine ⟨nodup, ?_, fun running => uncut (s.unstopped_before running), ?_⟩
  · intro n e he begun
    rcases s.movesOne with same | ⟨k, e', moved, begins⟩
    · rw [same] at he
      exact kept n (c.invoked n e he begun)
    · rw [moved, Table.get?_set] at he
      split at he
      · rename_i here
        subst here
        cases he
        rcases begins begun with now | ⟨old, ho, before⟩
        · exact now
        · exact kept k (c.invoked k old ho before)
      · exact kept n (c.invoked n e he begun)
  · cases stopped : m.run.stopped with
    | true =>
      -- nobody joins the crew
      refine Nat.le_trans (Table.weigh_le_weigh nodup c.nodup fun n => ?_) c.crew
      have later := step n
      rw [stopped] at later
      exact later.crew_le
    | false =>
      have total := permits.total
      have held : m'.run.executions.weigh Execution.crew ≤ m'.run.stages.weigh Stage.holds :=
        Table.weigh_le_weigh nodup permits.nodup_stages fun n =>
          Post.crew_le_holds (fits n) (uncut stopped n)
      omega

theorem initial (f : Flow) (workers : Nat) (registry : Registry) :
    Manned workers (Moment.initial f workers registry).run where
  nodup := List.nodup_nil
  invoked n e he := by cases he
  uncut _ n begun he := by cases he
  crew := Nat.zero_le workers

end Manned

/-- **At every moment of every run the run is manned.** -/
theorem Setup.manned (s : Setup) (xs : List Choice) : Manned s.workers (s.after xs).run := by
  induction xs with
  | nil =>
    rw [after, Moment.after_nil, s.start_eq]
    exact .initial s.flow s.workers s.registry
  | cons x earlier ih =>
    have before := s.sound earlier
    have later := s.sound (x :: earlier)
    exact ih.shift (before.orderly.shift_next x)
      (before.posted.post_next before.recorded before.orderly x) later.posted.fits later.permits

end StepFlow
