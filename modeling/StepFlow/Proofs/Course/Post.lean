import StepFlow.Proofs.Course.Shift

/-! # Steps of posts

Whatever a move shifts, the post of each leaf goes on by one small step or stays, and `Post.Step`
lists these steps. What the posts of a run have in common, and what they never do, is read off that
list.

Main statements: `Shift.post`, that every move takes the post of every leaf on by a step, and
`Posted.next`, that every move keeps posts and verdicts together. -/

namespace StepFlow

/-- What becomes of an execution that is cut short. -/
def Execution.cut : Execution → Execution
  | .spawned => .cancelled false
  | .begun | .resumed => .cancelled true
  | e => e

/-- A **step of a post**, in a run that is stopped or not; the order is given when the leaf is
committed in the move, and says whether it is to be skipped. -/
inductive Post.Step (stopped : Bool) : Option Bool → Post → Post → Prop where
  /-- Nothing happens to it. -/
  | stay (p : Post) : Step stopped none p p
  /-- The leaf is committed. -/
  | dispatch (skip : Bool) (e : Option Execution) :
      Step stopped (some skip) (none, e) (some (.dispatched skip), e)
  /-- The worker of a leaf that is to be skipped is done at once. -/
  | skip (e : Option Execution) : Step stopped none (some (.dispatched true), e) (some .done, e)
  /-- A worker that has not launched its executor is done when the run is stopped. -/
  | leave {s : Stage} (e : Option Execution) (h : stopped = true)
      (early : s = .dispatched false ∨ s = .queued ∨ s = .granted ∨ s = .starting) :
      Step stopped none (some s, e) (some .done, e)
  /-- A worker queues for a permit. -/
  | queue (e : Option Execution) : Step stopped none (some (.dispatched false), e) (some .queued, e)
  /-- A worker that queues is handed a permit. -/
  | grant (e : Option Execution) : Step stopped none (some .queued, e) (some .granted, e)
  /-- A worker with a permit announces the start. -/
  | start {s : Stage} (e : Option Execution) (h : stopped = false)
      (early : s = .dispatched false ∨ s = .granted) :
      Step stopped none (some s, e) (some .starting, e)
  /-- A worker launches its executor. -/
  | launch (e : Option Execution) (h : stopped = false) :
      Step stopped none (some .starting, e) (some .running, some .spawned)
  /-- The worker of an execution that has ended is done. -/
  | finish (o : Outcome) :
      Step stopped none (some .running, some (.ended o)) (some .done, some (.ended o))
  /-- A worker cuts its execution short when the run is stopped. -/
  | cut (e : Option Execution) (h : stopped = true) :
      Step stopped none (some .running, e) (some .done, e.map Execution.cut)
  /-- An execution begins. -/
  | begin (s : Option Stage) : Step stopped none (s, some .spawned) (s, some .begun)
  /-- An execution that waits is released. -/
  | resume (s : Option Stage) : Step stopped none (s, some .begun) (s, some .resumed)
  /-- An execution that was released goes on. -/
  | goOn (s : Option Stage) : Step stopped none (s, some .resumed) (s, some .begun)
  /-- An execution ends. -/
  | done (s : Option Stage) (o : Outcome) : Step stopped none (s, some .begun) (s, some (.ended o))
  /-- An execution that was cut short is dropped. -/
  | drop (s : Option Stage) (begun : Bool) :
      Step stopped none (s, some (.cancelled begun)) (s, some .dropped)

namespace Coordinator

variable (c : Coordinator) (n k : Name)

/-! ## Moves of tasks and permits -/

@[simp] theorem post_wake (t : Task) : (c.wake t).post k = c.post k := by
  unfold wake
  split <;> rfl

theorem post_setStage (s : Stage) :
    (c.setStage n s).post k = if n = k then (some s, c.executions.get? k) else c.post k := by
  unfold post setStage
  rw [Table.get?_set]
  by_cases h : n = k <;> simp [h]

theorem post_setExecution (e : Execution) :
    (c.setExecution n e).post k = if n = k then (c.stages.get? k, some e) else c.post k := by
  unfold post setExecution
  rw [Table.get?_set]
  by_cases h : n = k <;> simp [h]

theorem post_dispatch (skip : Bool) : (c.dispatch n skip).post k =
    if n = k then (some (.dispatched skip), c.executions.get? k) else c.post k := by
  rw [dispatch, post_wake]
  exact post_setStage c n k (.dispatched skip)

/-- A permit that is given back is handed to a worker that queues, or to none. -/
theorem step_giveBack (stopped : Bool) : Post.Step stopped none (c.post k) (c.giveBack.post k) := by
  unfold giveBack
  split
  · exact .stay _
  · rename_i n rest _
    unfold grant
    split
    · rename_i queued
      rw [post_wake]
      have moved := post_setStage c n k .granted
      by_cases same : n = k
      · -- the first worker that queues is handed the permit
        subst same
        rw [if_pos rfl] at moved
        have here : c.post n = (some .queued, c.executions.get? n) := by rw [post, ← queued]
        rw [here]
        exact moved ▸ .grant _
      · rw [if_neg same] at moved
        exact moved ▸ .stay _
    · exact .stay _

/-- A worker that does not queue is handed no permit. -/
theorem post_giveBack_of_ne (h : c.stages.get? k ≠ some .queued) :
    c.giveBack.post k = c.post k := by
  unfold giveBack
  split
  · rfl
  · rename_i n rest _
    unfold grant
    split
    · rename_i queued
      rw [post_wake]
      have different : n ≠ k := by
        rintro rfl
        exact h queued
      exact (post_setStage c n k .granted).trans (if_neg different)
    · rfl

/-- A worker that is done and gives its permit back. -/
theorem step_done_giveBack {stopped : Bool} {d : Coordinator} {e : Option Execution}
    (self : d.post n = (some .done, e)) (others : ∀ k, n ≠ k → d.post k = c.post k)
    (step : Post.Step stopped none (c.post n) (some .done, e)) :
    Post.Step stopped none (c.post k) (d.giveBack.post k) := by
  by_cases same : n = k
  · -- the worker itself is done and does not queue, so its permit goes to another
    subst same
    have idle : d.stages.get? n ≠ some .queued := by
      have : d.stages.get? n = some .done := congrArg Prod.fst self
      rw [this]
      exact fun h => by cases h
    rw [post_giveBack_of_ne d n idle, self]
    exact step
  · rw [← others k same]
    exact step_giveBack d k stopped

theorem post_cancel : (c.cancel n).post k =
    if n = k then (c.stages.get? k, (c.executions.get? k).map Execution.cut) else c.post k := by
  by_cases same : n = k
  · subst same
    rw [if_pos rfl]
    unfold cancel
    split
    · rename_i h
      rw [post_wake, post_setExecution, if_pos rfl, h]
      rfl
    · rename_i h
      rw [post_wake, post_setExecution, if_pos rfl, h]
      rfl
    · rename_i h
      rw [post_wake, post_setExecution, if_pos rfl, h]
      rfl
    · rename_i notSpawned notBegun notResumed
      unfold post
      cases h : c.executions.get? n with
      | none => rfl
      | some e => cases e <;> first | rfl | simp_all
  · rw [if_neg same]
    unfold cancel
    split <;> first | rfl | rw [post_wake, post_setExecution, if_neg same]

theorem step_setExecution {stopped : Bool} {e : Execution}
    (h : Post.Step stopped none (c.post n) (c.stages.get? n, some e)) :
    Post.Step stopped none (c.post k) ((c.setExecution n e).post k) := by
  rw [post_setExecution]
  by_cases same : n = k
  · subst same
    rw [if_pos rfl]
    exact h
  · rw [if_neg same]
    exact .stay _

theorem step_setStage {stopped : Bool} {s : Stage}
    (h : Post.Step stopped none (c.post n) (some s, c.executions.get? n)) :
    Post.Step stopped none (c.post k) ((c.setStage n s).post k) := by
  rw [post_setStage]
  by_cases same : n = k
  · subst same
    rw [if_pos rfl]
    exact h
  · rw [if_neg same]
    exact .stay _

variable {c n} in
theorem WorkerTurn.step {calls : List Call} {d : Coordinator} (turn : WorkerTurn c n calls d) :
    Post.Step c.stopped none (c.post k) (d.post k) := by
  have at_stage : ∀ {s}, c.stages.get? n = some s → c.post n = (some s, c.executions.get? n) :=
    fun h => by rw [post, h]
  cases turn with
  | rest => exact .stay _
  | skip here => exact step_setStage c n k (at_stage here ▸ .skip _)
  | leave here stopped =>
    exact step_setStage c n k (at_stage here ▸ .leave _ stopped (by simp))
  | take here running =>
    exact step_setStage { c with permits := c.permits - 1 } n k
      (show Post.Step _ none (c.post n) _ from at_stage here ▸ .start _ running (by simp))
  | queue here =>
    exact step_setStage { c with waiters := c.waiters ++ [n] } n k
      (show Post.Step _ none (c.post n) _ from at_stage here ▸ .queue _)
  | unqueue here stopped =>
    exact step_setStage { c with waiters := c.waiters.erase n } n k
      (show Post.Step _ none (c.post n) _ from at_stage here ▸ .leave _ stopped (by simp))
  | decline here stopped =>
    refine step_done_giveBack c n k (e := c.executions.get? n) ?_ ?_ ?_
    · rw [post_setStage, if_pos rfl]
    · intro k hk
      rw [post_setStage, if_neg hk]
    · rw [at_stage here]
      exact .leave _ stopped (by simp)
  | start here running =>
    exact step_setStage c n k (at_stage here ▸ .start _ running (by simp))
  | cut here stopped =>
    -- the worker leaves and its execution is cancelled in one go
    refine step_done_giveBack c n k (e := (c.executions.get? n).map Execution.cut) ?_ ?_ ?_
    · rw [post_cancel, if_pos rfl]
      simp only [setStage, Table.get?_set, if_true]
    · intro k hk
      rw [post_cancel, if_neg hk, post_setStage, if_neg hk]
    · rw [at_stage here]
      exact .cut _ stopped
  | @finish o here running ended =>
    refine step_done_giveBack c n k (e := some (.ended o)) ?_ ?_ ?_
    · rw [post_setStage, if_pos rfl, ended]
    · intro k hk
      rw [post_setStage, if_neg hk]
    · rw [at_stage here, ended]
      exact .finish o

variable {c n} in
theorem ExecutorTurn.step {part : Option Part} {d : Coordinator} (turn : ExecutorTurn c n part d)
    (stopped : Bool) : Post.Step stopped none (c.post k) (d.post k) := by
  have at_execution : ∀ {e}, c.executions.get? n = some e → c.post n = (c.stages.get? n, some e) :=
    fun h => by rw [post, h]
  cases turn with
  | rest => exact .stay _
  | begin here =>
    exact step_setExecution { c with invoked := n :: c.invoked } n k
      (show Post.Step _ none (c.post n) _ from at_execution here ▸ .begin _)
  | goOn here => exact step_setExecution c n k (at_execution here ▸ .goOn _)
  | @drop begun here => exact step_setExecution c n k (at_execution here ▸ .drop _ begun)

end Coordinator

open Coordinator

/-- **Every shift takes the post of every leaf on by a step.** -/
theorem Shift.post {m m' : Moment} (s : Shift m m')
    (free : ∀ n, m.status n = .waiting → m.run.stages.get? n = none) (k : Name) :
    Post.Step m.run.stopped (m.order? k) (m.run.post k) (m'.run.post k) := by
  cases s with
  | keep _ _ _ _ order? same =>
    rw [order?, same.post]
    exact .stay _
  | @dispatch n t skip rest agenda agenda' waits order? run' =>
    rw [order?, run', post_dispatch]
    by_cases same : n = k
    · -- a leaf that is committed has had no worker before
      subst same
      rw [if_pos rfl, if_pos rfl, Coordinator.post, free n waits]
      exact .dispatch _ _
    · rw [if_neg same, if_neg same]
      exact .stay _
  | worker _ _ order? turn =>
    rw [order?]
    exact turn.step k
  | executor _ _ _ order? turn =>
    rw [order?]
    exact turn.step k _
  | @launch n rest agenda agenda' here running order? run' =>
    rw [order?, run', post_wake, post_setExecution]
    by_cases same : n = k
    · subst same
      rw [if_pos rfl, Coordinator.post, here]
      simp only [setStage, Table.get?_set, if_true]
      exact .launch _ running
    · rw [if_neg same, post_setStage, if_neg same]
      exact .stay _
  | @abandon n rest agenda agenda' here stopped order? run' =>
    -- the permit that is given back may go to another leaf, whose post moves as well
    rw [order?, run']
    refine step_done_giveBack m.run n k (e := m.run.executions.get? n) ?_ ?_ ?_
    · rw [post_setStage, if_pos rfl]
    · intro k hk
      rw [post_setStage, if_neg hk]
    · rw [Coordinator.post, here]
      exact .leave _ stopped (by simp)
  | @ended n o rest agenda agenda' here order? run' =>
    rw [order?, run', post_wake]
    refine step_setExecution m.run n k ?_
    rw [Coordinator.post, here]
    exact .done _ o
  | @resume n gone agenda pauses here order? woken same =>
    rw [order?, same.post]
    refine step_setExecution m.run n k ?_
    rw [Coordinator.post, here]
    exact .resume _
  | stop _ _ _ order? run' =>
    rw [order?, run']
    exact .stay _

/-! ## What posts have in common -/

/-- Whether a worker and an execution go together: an execution is launched by a worker with a
permit, which stays with it until it is over. -/
def Post.fits : Post → Bool
  | (some .running, some .spawned) | (some .running, some .begun) | (some .running, some .resumed)
  | (some .running, some (.ended _)) => true
  | (some .running, _) => false
  | (some .done, some (.ended _)) | (some .done, some (.cancelled _))
  | (some .done, some .dropped) => true
  | (_, none) => true
  | (_, some _) => false

/-- The verdict of a leaf whose worker is in a stage, as far as the stage tells. -/
def Stage.verdict? : Stage → Option Verdict
  | .dispatched true => some .skip
  | .dispatched false | .queued | .granted | .starting | .running => some .run
  | .done => none

/-- Whether an execution is neither over nor to be dropped. -/
def Execution.isLive : Execution → Bool
  | .spawned | .begun | .resumed => true
  | .ended _ | .cancelled _ | .dropped => false

namespace Post

/-- A worker without a permit, or that has not launched its executor, has no execution. -/
theorem eq_none_of_fits {s : Option Stage} {e : Option Execution} (h : fits (s, e) = true)
    (running : s ≠ some .running) (done : s ≠ some .done) : e = none := by
  cases e with
  | none => rfl
  | some e =>
    cases s with
    | none => cases h
    | some s => cases s <;> first | cases h | exact absurd rfl running | exact absurd rfl done

/-- The worker of an execution that is not over runs. -/
theorem eq_running_of_fits {s : Option Stage} {e : Execution} (h : fits (s, some e) = true)
    (live : e.isLive = true) : s = some .running := by
  cases s with
  | none => cases h
  | some s => cases s <;> cases e <;> simp_all [fits, Execution.isLive]

/-- The worker of an execution that was cut short is done. -/
theorem eq_done_of_fits {s : Option Stage} {begun : Bool}
    (h : fits (s, some (.cancelled begun)) = true) : s = some .done := by
  cases s with
  | none => cases h
  | some s => cases s <;> first | rfl | cases h

end Post

namespace Post.Step

variable {stopped : Bool} {order : Option Bool} {p q : Post}

theorem fits (h : Step stopped order p q) (hp : p.fits = true) : q.fits = true := by
  cases h with
  | stay => exact hp
  | dispatch skip e => rw [eq_none_of_fits hp (by simp) (by simp)]; rfl
  | skip e => rw [eq_none_of_fits hp (by simp) (by simp)]; rfl
  | leave e h early =>
    rw [eq_none_of_fits hp (by rcases early with rfl | rfl | rfl | rfl <;> simp)
      (by rcases early with rfl | rfl | rfl | rfl <;> simp)]
    rfl
  | queue e => rw [eq_none_of_fits hp (by simp) (by simp)]; rfl
  | grant e => rw [eq_none_of_fits hp (by simp) (by simp)]; rfl
  | start e h early =>
    rw [eq_none_of_fits hp (by rcases early with rfl | rfl <;> simp)
      (by rcases early with rfl | rfl <;> simp)]
    rfl
  | launch e h => rfl
  | finish o => rfl
  | cut e h =>
    cases e with
    | none => cases hp
    | some e => cases e <;> rfl
  | begin s => rw [eq_running_of_fits hp rfl]; rfl
  | resume s => rw [eq_running_of_fits hp rfl]; rfl
  | goOn s => rw [eq_running_of_fits hp rfl]; rfl
  | done s o => rw [eq_running_of_fits hp rfl]; rfl
  | drop s begun => rw [eq_done_of_fits hp]; rfl

/-- A worker comes into being with an order. -/
theorem isSome (h : Step stopped order p q) :
    q.1.isSome = true ↔ p.1.isSome = true ∨ order ≠ none := by
  cases h <;> simp

/-- The verdict of a worker is that of its order. -/
theorem verdict? (h : Step stopped order p q) {s : Stage} {v : Verdict} (hs : q.1 = some s)
    (hv : s.verdict? = some v) :
    (∃ s', p.1 = some s' ∧ s'.verdict? = some v) ∨
      ∃ skip, order = some skip ∧ v = if skip then .skip else .run := by
  cases h with
  | dispatch skip e =>
    cases hs
    cases skip <;> cases hv <;> exact .inr ⟨_, rfl, rfl⟩
  | start e h early =>
    cases hs
    cases hv
    rcases early with rfl | rfl <;> exact .inl ⟨_, rfl, rfl⟩
  | stay => exact .inl ⟨s, hs, hv⟩
  | skip | leave | finish | cut => cases hs; cases hv
  | queue | grant | launch => cases hs; cases hv; exact .inl ⟨_, rfl, rfl⟩
  | begin | resume | goOn | done | drop => exact .inl ⟨s, hs, hv⟩

/-- An execution comes into being when it is launched. -/
theorem executed (h : Step stopped order p q) (hq : q.2 ≠ none) :
    p.2 ≠ none ∨ p.1 = some .starting := by
  cases h with
  | launch => exact .inr rfl
  | cut e => cases e <;> simp_all
  | begin | resume | goOn | done | drop => exact .inl (by simp)
  | stay | dispatch | skip | leave | queue | grant | start | finish => exact .inl hq

/-- An execution that has ended by itself stays so. -/
theorem ended (h : Step stopped order p q) (hp : p.fits = true) {o : Outcome}
    (ho : p.2 = some (.ended o)) : q.2 = some (.ended o) := by
  cases h with
  | launch e => cases ho; cases hp
  | cut e => cases ho; rfl
  | begin | resume | goOn | done | drop => cases ho
  | stay | dispatch | skip | leave | queue | grant | start | finish => exact ho

end Post.Step

/-- A moment is **posted** when the post of every leaf agrees with its verdict. -/
structure Posted (f : Flow) (m : Moment) (h : History) : Prop where
  /-- Workers and executions go together. -/
  fits : ∀ n, (m.run.post n).fits = true
  /-- Exactly the leaves that were committed have workers. -/
  staged : ∀ n, (m.run.stages.get? n).isSome = true ↔
    f.isLeaf n = true ∧ (h.verdict n = some .run ∨ h.verdict n = some .skip)
  /-- The stage of a worker tells the verdict of its leaf. -/
  verdict : ∀ n s v, m.run.stages.get? n = some s → s.verdict? = some v → h.verdict n = some v
  /-- Only leaves that were committed to run have executions. -/
  executed : ∀ n, m.run.executions.get? n ≠ none → h.verdict n = some .run

namespace Posted

variable {f : Flow} {m : Moment} {h : History} (con : f.Consistent) (o : Orderly f m)
  (r : Recorded f m h) (p : Posted f m h)

include p

/-- A step that waits has no worker. -/
theorem free (r : Recorded f m h) {n : Name} (waits : m.status n = .waiting) :
    m.run.stages.get? n = none := by
  cases hs : m.run.stages.get? n with
  | none => rfl
  | some s =>
    have committed := ((p.staged n).1 (by rw [hs]; rfl)).2
    rw [(r.verdict_eq_none n).2 waits] at committed
    rcases committed with h | h <;> cases h

include r in
theorem post_next (o : Orderly f m) (x : Choice) (n : Name) :
    Post.Step m.run.stopped (m.order? n) (m.run.post n) ((m.next x).run.post n) :=
  (o.shift_next x).post (fun _ => p.free r) n

include con o r

/-- **Every move keeps a moment posted.** -/
theorem next (x : Choice) : Posted f (m.next x) (m :: h) := by
  have step := p.post_next r o x
  have given := fun n v => r.verdict_cons_eq_some_iff (n := n) (v := v) o con
  have orders : ∀ n skip, m.order? n = some skip ↔
      f.isLeaf n = true ∧ m.verdict? n = some (if skip then .skip else .run) := by
    intro n skip
    rw [Moment.order?_eq_some, o.flow]
  exact
    { fits := fun n => (step n).fits (p.fits n)
      staged := fun n => by
        have moved : ((m.next x).run.stages.get? n).isSome = true ↔
            (m.run.stages.get? n).isSome = true ∨ m.order? n ≠ none := (step n).isSome
        rw [moved, p.staged, given, given]
        constructor
        · rintro (⟨isLeaf, committed⟩ | ordered)
          · exact ⟨isLeaf, committed.imp .inr .inr⟩
          · -- a new worker has an order, and the order is the verdict of this move
            obtain ⟨skip, order⟩ := Option.ne_none_iff_exists'.1 ordered
            obtain ⟨isLeaf, now⟩ := (orders n _).1 order
            refine ⟨isLeaf, ?_⟩
            cases skip with
            | false => exact .inl (.inl now)
            | true => exact .inr (.inl now)
        · rintro ⟨isLeaf, (now | before) | (now | before)⟩
          · refine .inr ?_
            have ordered : m.order? n = some false := (orders n _).2 ⟨isLeaf, now⟩
            rw [ordered]
            exact fun h => by cases h
          · exact .inl ⟨isLeaf, .inl before⟩
          · refine .inr ?_
            have ordered : m.order? n = some true := (orders n _).2 ⟨isLeaf, now⟩
            rw [ordered]
            exact fun h => by cases h
          · exact .inl ⟨isLeaf, .inr before⟩
      verdict := fun n s v hs hv => by
        rw [given]
        rcases (step n).verdict? hs hv with ⟨s', hs', hv'⟩ | ⟨skip, order, rfl⟩
        · exact .inr (p.verdict n s' v hs' hv')
        · exact .inl ((orders n _).1 order).2
      executed := fun n hn => by
        rw [given]
        rcases (step n).executed hn with before | starting
        · exact .inr (p.executed n before)
        · exact .inr (p.verdict n _ _ starting rfl) }

omit con o r p in
theorem initial (f : Flow) (workers : Nat) (registry : Registry) :
    Posted f (Moment.initial f workers registry) [] where
  fits n := rfl
  staged n := by
    constructor
    · intro hn
      cases hn
    · rintro ⟨-, hn | hn⟩ <;> cases hn
  verdict n s v hs := by cases hs
  executed n hn := absurd rfl hn

end Posted

end StepFlow
