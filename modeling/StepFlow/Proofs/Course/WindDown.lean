import StepFlow.Proofs.Course.ExecutionBound
import StepFlow.Proofs.Course.Queue
import StepFlow.Proofs.Stop

/-! # How a stopped run winds down

A stop wakes the workers that wait, and they stand in the queue together, behind what was ready
before and in front of all that becomes ready later. What stands before them does not depend on
their order. Once it has had its turn, an execution that is not over belongs to one of these
workers, who cuts it short before its executor can have a turn. So from there on nothing is invoked
and nothing is put out any more, in whatever order the workers were woken.

Main statement: `Setup.exists_winding_down`. -/

namespace StepFlow

open Coordinator

/-! ## Live executions -/

/-- Whether the execution of a leaf is neither over nor to be dropped. -/
def Coordinator.IsLive (c : Coordinator) (n : Name) : Prop :=
  ∃ e, c.executions.get? n = some e ∧ e.isLive = true

/-- What is live after a step of a stopped run was so before. -/
theorem Post.Step.live_before {order : Option Bool} {p q : Post} (h : Step true order p q)
    {e : Execution} (hq : q.2 = some e) (live : e.isLive = true) :
    ∃ e', p.2 = some e' ∧ e'.isLive = true := by
  cases h with
  | launch e running => cases running
  | cut e' =>
    cases e' with
    | none => cases hq
    | some e' => cases hq; cases e' <;> cases live
  | done => cases hq; cases live
  | drop => cases hq; cases live
  | begin | resume | goOn => exact ⟨_, rfl, rfl⟩
  | stay | dispatch | skip | leave | queue | grant | start | finish => exact ⟨e, hq, live⟩

/-- An executor is asked only for a live execution. -/
theorem Coordinator.isLive_of_part? {c : Coordinator} {n : Name} (h : c.part? n ≠ none) :
    c.IsLive n := by
  unfold part? at h
  split at h
  · exact ⟨_, by assumption, rfl⟩
  · exact ⟨_, by assumption, rfl⟩
  · exact absurd rfl h

/-- A worker whose turn comes in a stopped run leaves no live execution behind. -/
theorem Coordinator.not_isLive_of_workerTurn {c : Coordinator} {n : Name}
    (fits : (c.post n).fits = true) (stopped : c.stopped = true) :
    ¬ (c.workerTurn n).2.IsLive n := by
  rintro ⟨e, he, live⟩
  have step := (workerTurn_spec c n).step n
  rw [stopped] at step
  obtain ⟨e', he', live'⟩ := step.live_before he live
  -- its worker runs, and in a stopped run it cuts the execution short in its turn
  have runs : c.stages.get? n = some .running := by
    have he' : c.executions.get? n = some e' := he'
    rw [post, he'] at fits
    exact Post.eq_running_of_fits fits live'
  have turn : (c.workerTurn n).2 = ((c.setStage n .done).cancel n).giveBack := by
    simp only [workerTurn, runs, stopped, if_true]
  have cut := congrArg (·.2) (post_cancel (c.setStage n .done) n n)
  rw [turn, executions_giveBack] at he
  rw [if_pos rfl] at cut
  have cut : some e = some e'.cut :=
    he.symm.trans (cut.trans (congrArg (Option.map Execution.cut) he'))
  cases cut
  cases e' <;> cases live' <;> cases live

namespace Moment.Alike

variable {m m' : Moment} (a : m.Alike m')

include a

theorem isLive_iff {n : Name} : m'.run.IsLive n ↔ m.run.IsLive n := by
  obtain ⟨-, q, -, run⟩ := a
  rw [run]
  exact .rfl

theorem stopped : m'.run.stopped = m.run.stopped := by
  obtain ⟨-, q, -, run⟩ := a
  rw [run]
  rfl

theorem post (n : Name) : m'.run.post n = m.run.post n := by
  obtain ⟨-, q, -, run⟩ := a
  rw [run]
  rfl

theorem mem_ready {t : Task} : t ∈ m'.run.ready ↔ t ∈ m.run.ready := by
  obtain ⟨-, q, perm, run⟩ := a
  rw [run]
  exact perm.mem_iff

end Moment.Alike

/-! ## Courses on which nothing is invoked -/

/-- A course goes on **still** if nothing is invoked and nothing is put out on it. -/
structure Setup.Still (s : Setup) (xs ys : List Choice) : Prop where
  emitted : ∀ n, s.emitted n (ys ++ xs) = s.emitted n xs
  invoked : (s.after (ys ++ xs)).run.invoked = (s.after xs).run.invoked

namespace Setup

variable {s : Setup} {xs ys : List Choice}

theorem Still.nil (s : Setup) (xs : List Choice) : s.Still xs [] := ⟨fun _ => rfl, rfl⟩

theorem Still.append (first : s.Still xs ys) {zs : List Choice}
    (second : s.Still (ys ++ xs) zs) : s.Still xs (zs ++ ys) where
  emitted n := by rw [List.append_assoc, second.emitted, first.emitted]
  invoked := by rw [List.append_assoc, second.invoked, first.invoked]

/-- While there is something left to do on the spot nothing is invoked. -/
theorem Still.of_call {call : Call} {rest : List Call} (agenda : (s.after xs).agenda = call :: rest)
    (x : Choice) : s.Still xs [x] where
  emitted n := by
    show s.emitted n xs ++ (s.after xs).emits x n = s.emitted n xs
    unfold Moment.emits
    rw [agenda, List.append_nil]
  invoked := by
    rcases ((s.sound xs).orderly.shift_next x).invoked with same | ⟨empty, -⟩
    · exact same
    · rw [agenda] at empty
      cases empty

/-- An agenda is settled still. -/
theorem exists_still_settle (calls : List Call) (c : Coordinator) :
    ∀ xs, (s.after xs).Alike ⟨calls, c⟩ →
      ∃ ys, (s.after (ys ++ xs)).Alike ⟨[], settle calls c⟩ ∧ s.Still xs ys := by
  fun_induction settle calls c with
  | case1 c => exact fun xs here => ⟨[], here, .nil s xs⟩
  | case2 call rest c result ih =>
    intro xs here
    -- while a call is left the choice does not matter
    obtain ⟨ys, there, still⟩ := ih (.request .start :: xs) (here.next (.request .start))
    refine ⟨ys ++ [.request .start], ?_,
      (Still.of_call here.agenda.symm (.request .start)).append still⟩
    rw [List.append_assoc]
    exact there

/-- The turn of a task is still if it asks no executor. -/
theorem Still.of_turn {c : Coordinator} (here : (s.after xs).Alike ⟨[], c⟩) {t : Task}
    (unasked : ∀ n, t = .executor n → c.part? n = none) (burst : Burst) :
    s.Still xs [.turn t burst] := by
  obtain ⟨agenda, q, -, run⟩ := here
  have agenda : (s.after xs).agenda = [] := agenda.symm
  have unasked : ∀ n, t = .executor n → (s.after xs).run.part? n = none := by
    intro n same
    have := unasked n same
    rwa [show c = (s.after xs).run.requeue q from run] at this
  refine ⟨fun n => ?_, ?_⟩
  · show s.emitted n xs ++ (s.after xs).emits (.turn t burst) n = s.emitted n xs
    have none : (s.after xs).emits (.turn t burst) n = [] := by
      unfold Moment.emits
      rw [agenda]
      cases t with
      | worker k => rfl
      | executor k => simp [unasked k rfl]
    rw [none, List.append_nil]
  · show ((s.after xs).next (.turn t burst)).run.invoked = _
    rw [Moment.next, agenda]
    simp only [choose]
    split
    · cases t with
      | worker k => exact (workerTurn_spec _ k).invoked
      | executor k =>
        have part : ({ (s.after xs).run with
            ready := (s.after xs).run.ready.erase (.executor k) } : Coordinator).part? k = none :=
          unasked k rfl
        simp only [turn, part, executorTurn]
        split <;> rfl
    · rfl

/-! ## Turns of a stopped run -/

section Stopped

variable (stopped : (s.after xs).run.stopped = true)

include stopped

/-- What is live in a stopped run was live when it was stopped. -/
theorem isLive_of_stopped {n : Name} (ys : List Choice)
    (live : (s.after (ys ++ xs)).run.IsLive n) : (s.after xs).run.IsLive n := by
  refine (s.stopped_induction (P := fun m _ => m.run.IsLive n → (s.after xs).run.IsLive n) stopped
    id (fun x zs stopped old live => old ?_) ys).2 live
  have sound := s.sound zs
  have step := sound.posted.post_next sound.recorded sound.orderly x n
  rw [stopped] at step
  obtain ⟨e, he, alive⟩ := live
  exact step.live_before he alive

/-- In a stopped run the worker of a live execution heeds the stop, and so it is ready. -/
theorem worker_mem_of_isLive {n : Name} (live : (s.after xs).run.IsLive n) :
    .worker n ∈ (s.after xs).run.ready := by
  obtain ⟨e, he, alive⟩ := live
  have sound := s.sound xs
  have fits := sound.posted.fits n
  rw [Coordinator.post, he] at fits
  refine sound.alert.worker n ?_
  rw [Coordinator.post, he, Post.eq_running_of_fits fits alive, stopped]
  cases e <;> rfl

/-- **A turn in a stopped run** leaves no execution live that was not so before or whose worker had
the turn, and it goes on still if it asks no executor. -/
theorem exists_advance {ω : Type} (x : Executor ω) (w : ω) {c : Coordinator}
    (here : (s.after xs).Alike ⟨[], c⟩) {t : Task} {rest : List Task}
    (first : c.ready = t :: rest) :
    ∃ ys, (s.after (ys ++ xs)).Alike ⟨[], (c.advance x t rest w).1⟩ ∧
      ((∀ n, t = .executor n → c.part? n = none) → s.Still xs ys) ∧
      ∀ n, (c.advance x t rest w).1.IsLive n → c.IsLive n ∧ t ≠ .worker n := by
  obtain ⟨burst, chosen⟩ := exists_choose_turn x w first
  -- the turn is one choice, and what follows from it is settled
  have turned : (s.after (.turn t burst :: xs)).Alike (c.choose (.turn t burst)) :=
    here.next (.turn t burst)
  obtain ⟨ys, there, still⟩ := exists_still_settle _ _ (.turn t burst :: xs) (chosen ▸ turned)
  have whole : ys ++ [.turn t burst] ++ xs = ys ++ .turn t burst :: xs :=
    (List.append_cons ..).symm
  refine ⟨ys ++ [.turn t burst], ?_, fun unasked => ?_, fun n live => ?_⟩
  · rw [whole]
    exact there
  · exact (Still.of_turn here unasked burst).append still
  · have stopped' : (s.after (.turn t burst :: xs)).run.stopped = true :=
      (s.stopped_induction (P := fun _ _ => True) stopped trivial
        (fun _ _ _ _ => trivial) [.turn t burst]).1
    have then_ := isLive_of_stopped stopped' ys (there.isLive_iff.1 live)
    refine ⟨here.isLive_iff.2 (isLive_of_stopped stopped [.turn t burst] then_), ?_⟩
    rintro rfl
    have fits : (c.post n).fits = true := by
      rw [show c.post n = (s.after xs).run.post n from here.post n]
      exact (s.sound xs).posted.fits n
    have halted : c.stopped = true := here.stopped.trans stopped
    have left := turned.isLive_iff.2 then_
    rw [chosen] at left
    exact not_isLive_of_workerTurn (c := { c with ready := rest }) fits halted left

end Stopped

/-- A run that is stopped stays so. -/
theorem stopped_append (stopped : (s.after xs).run.stopped = true) (ys : List Choice) :
    (s.after (ys ++ xs)).run.stopped = true :=
  (s.stopped_induction (P := fun _ _ => True) stopped trivial (fun _ _ _ _ => trivial) ys).1

end Setup

/-! ## Two wakings -/

/-- Two runs that differ in the order in which workers were woken **meet** when all that stood
before these workers has had its turn. The executions that are live by then belong to the workers
that were woken. -/
inductive Setup.Meet {ω : Type} (s : Setup) (x : Executor ω) (woken woken' : List Task)
    (xs : List Choice) (one other : Coordinator × ω) : Prop where
  | intro (ys : List Choice) (d : Coordinator) (back : List Task) (w : ω)
      (here : (s.after (ys ++ xs)).Alike ⟨[], d.requeue (woken ++ back)⟩)
      (live : ∀ n, d.IsLive n → .worker n ∈ woken)
      (one : one = (d.requeue (woken ++ back)).runUntilIdle x w)
      (other : other = (d.requeue (woken' ++ back)).runUntilIdle x w)

namespace Setup

variable {s : Setup} {ω : Type} (x : Executor ω)

/-- Runs meet when nothing stands before the workers that were woken. -/
private theorem meet_now (woken woken' back : List Task) (c : Coordinator) (w : ω)
    {xs : List Choice} (ready : c.ready = woken ++ back) (here : (s.after xs).Alike ⟨[], c⟩)
    (live : ∀ n, c.IsLive n → .worker n ∈ woken) :
    s.Meet x woken woken' xs (c.runUntilIdle x w)
      ((c.requeue (woken' ++ back)).runUntilIdle x w) := by
  have same : c.requeue (woken ++ back) = c := by rw [← ready, requeue_ready]
  exact .intro [] c back w (by rw [same]; exact here) live (by rw [same]) rfl

/-- **What stands before the workers that were woken has its turn first**, and does not depend on
their order. -/
theorem meet_runUntilIdle {woken woken' : List Task} (perm : woken'.Perm woken) (c : Coordinator)
    (w : ω) : ∀ (front back : List Task) (xs : List Choice), c.ready = front ++ woken ++ back →
      (s.after xs).Alike ⟨[], c⟩ → (s.after xs).run.stopped = true →
      (∀ n, c.IsLive n → .worker n ∈ front ++ woken) →
      s.Meet x woken woken' xs (c.runUntilIdle x w)
        ((c.requeue (front ++ woken' ++ back)).runUntilIdle x w) := by
  fun_induction runUntilIdle x c w with
  | case1 c w idle =>
    intro front back xs ready here stopped live
    have none : front = [] := by
      rw [idle, List.append_assoc] at ready
      exact (List.append_eq_nil_iff.1 ready.symm).1
    subst none
    rw [← runUntilIdle_of_nil x w idle]
    exact meet_now x woken woken' back c w ready here live
  | case2 c w t rest first next ih =>
    intro front back xs ready here stopped live
    cases front with
    | nil =>
      rw [← runUntilIdle_of_cons x w first]
      exact meet_now x woken woken' back c w ready here live
    | cons head front =>
      rw [first] at ready
      obtain ⟨rfl, rfl⟩ := List.cons.inj ready
      -- the task that comes first has its turn in both runs
      obtain ⟨pre, post, -, goes⟩ := advance_requeue x c t (front ++ woken ++ back) w
      have now : next.1.ready = pre ++ (front ++ woken ++ back) ++ post :=
        congrArg (·.1.ready) (goes _ (holds_ready _))
      have holds : (c.requeue (front ++ woken ++ back)).Holds (front ++ woken' ++ back) :=
        holds_of_perm ((perm.append_left front).append_right back)
      have other : (c.requeue (t :: front ++ woken' ++ back)).advance x t
          (front ++ woken' ++ back) w =
          (next.1.requeue (pre ++ (front ++ woken' ++ back) ++ post), next.2) := goes _ holds
      obtain ⟨ys, there, -, kept⟩ := exists_advance stopped x w here first
      have others : ∀ n, next.1.IsLive n → .worker n ∈ pre ++ front ++ woken := by
        intro n alive
        obtain ⟨before, different⟩ := kept n alive
        rcases List.mem_cons.1 (live n before) with same | behind
        · exact absurd same.symm different
        · rw [List.append_assoc]
          exact List.mem_append_right _ behind
      have shape : ∀ middle : List Task, pre ++ (front ++ middle ++ back) ++ post =
          pre ++ front ++ middle ++ (back ++ post) := fun middle => by
        simp only [List.append_assoc]
      rw [shape] at now other
      have later := ih (pre ++ front) (back ++ post) (ys ++ xs) now there
        (stopped_append stopped ys) others
      have turns := runUntilIdle_of_cons x (c := c.requeue (t :: front ++ woken' ++ back)) w
        (show _ = t :: (front ++ woken' ++ back) from rfl)
      rw [other] at turns
      rw [turns]
      obtain ⟨zs, d, back', w', meets, live', one, other'⟩ := later
      exact .intro (zs ++ ys) d back' w' (by rw [List.append_assoc]; exact meets) live' one other'

/-- **From where they meet, stopped runs go on still**: the workers that were woken cut short what
is live before an executor has its turn. -/
theorem exists_still_runUntilIdle (c : Coordinator) (w : ω) :
    ∀ (woken back : List Task) (xs : List Choice), c.ready = woken ++ back →
      (∀ t ∈ woken, ∃ n, t = .worker n) → (s.after xs).Alike ⟨[], c⟩ →
      (s.after xs).run.stopped = true → (∀ n, c.IsLive n → .worker n ∈ woken) →
      ∃ ys, (s.after (ys ++ xs)).Alike ⟨[], (c.runUntilIdle x w).1⟩ ∧ s.Still xs ys := by
  fun_induction runUntilIdle x c w with
  | case1 c w idle =>
    exact fun woken back xs ready workers here stopped live => ⟨[], here, .nil s xs⟩
  | case2 c w t rest first next ih =>
    intro woken back xs ready workers here stopped live
    obtain ⟨ys, there, still, kept⟩ := exists_advance stopped x w here first
    have stopped' := stopped_append stopped ys
    cases woken with
    | nil =>
      -- nothing is live any more
      have dead : ∀ n, ¬ c.IsLive n := fun n alive => by cases live n alive
      have unasked : ∀ n, t = .executor n → c.part? n = none := fun n _ => by
        by_contra asked
        exact dead n (isLive_of_part? asked)
      obtain ⟨zs, meets, still'⟩ := ih [] next.1.ready (ys ++ xs) rfl (fun t mem => by cases mem)
        there stopped' fun n alive => absurd (kept n alive).1 (dead n)
      exact ⟨zs ++ ys, by rw [List.append_assoc]; exact meets, (still unasked).append still'⟩
    | cons head woken =>
      rw [first] at ready
      obtain ⟨rfl, rfl⟩ := List.cons.inj ready
      obtain ⟨k, rfl⟩ := workers t List.mem_cons_self
      -- a worker has its turn, and what becomes ready by that comes last
      obtain ⟨pre, post, none, goes⟩ := advance_requeue x c (.worker k) (woken ++ back) w
      have now : next.1.ready = pre ++ (woken ++ back) ++ post :=
        congrArg (·.1.ready) (goes _ (holds_ready _))
      rw [none k rfl, List.nil_append, List.append_assoc] at now
      obtain ⟨zs, meets, still'⟩ := ih woken (back ++ post) (ys ++ xs) now
        (fun t mem => workers t (List.mem_cons_of_mem _ mem)) there stopped' fun n alive => by
          obtain ⟨before, different⟩ := kept n alive
          rcases List.mem_cons.1 (live n before) with same | behind
          · exact absurd same.symm different
          · exact behind
      exact ⟨zs ++ ys, by rw [List.append_assoc]; exact meets,
        (still fun n same => by cases same).append still'⟩

/-! ## The effect of a stop -/

/-- Requests to a stopped run put tasks behind the queue. -/
theorem exists_asks (wake : Waking) (requests : List Request) :
    ∀ (c : Coordinator) (xs : List Choice), (s.after xs).Alike ⟨[], c⟩ →
      (s.after xs).run.stopped = true → ∃ ys post,
        (s.after (ys ++ xs)).Alike ⟨[], requests.foldl (ask wake) c⟩ ∧
        ∀ (other : Waking) (q : List Task), c.Holds q → requests.foldl (ask other) (c.requeue q) =
          (requests.foldl (ask wake) c).requeue (q ++ post) := by
  induction requests with
  | nil => exact fun c xs here _ => ⟨[], [], here, fun _ q _ => by rw [List.append_nil]; rfl⟩
  | cons r rest ih =>
    intro c xs here stopped
    obtain ⟨ys, asked⟩ := here.exists_ask wake r
    have there : (s.after (ys ++ xs)).Alike ⟨[], c.ask wake r⟩ := by
      rw [Setup.after, Moment.after_append]
      exact asked
    -- the first request does so: no waking has an effect any more, since the run is stopped
    have goes : ∃ post, ∀ (other : Waking) q, c.Holds q →
        (c.requeue q).ask other r = (c.ask wake r).requeue (q ++ post) := by
      have halted : c.stopped = true := here.stopped.trans stopped
      cases r with
      | start =>
        obtain ⟨pre, post, none, goes⟩ := settle_requeue c.startCalls c
        rw [none fun n o mem => by simp [startCalls] at mem] at goes
        exact ⟨post, fun _ q holds => goes q holds⟩
      | stop =>
        refine ⟨[], fun other q _ => ?_⟩
        rw [ask_stop_of_stopped wake halted, List.append_nil]
        exact ask_stop_of_stopped other halted
      | release n =>
        obtain ⟨post, goes⟩ := (c.appends_release n).requeue
        exact ⟨post, fun _ q holds => goes q holds⟩
    obtain ⟨post, goes⟩ := goes
    obtain ⟨zs, post', meets, goes'⟩ := ih (c.ask wake r) (ys ++ xs) there
      (stopped_append stopped ys)
    have ready : (c.ask wake r).ready = [] ++ c.ready ++ post :=
      congrArg Coordinator.ready (goes wake c.ready c.holds_ready)
    refine ⟨zs ++ ys, post ++ post', by rw [List.append_assoc]; exact meets,
      fun other q holds => ?_⟩
    have holds' : (c.ask wake r).Holds (q ++ post) := holds.append ready
    rw [List.foldl_cons, goes other q holds, goes' other _ holds', List.append_assoc]
    rfl

/-- A stop that is carried out wakes the workers of all live executions. -/
private theorem exists_stopping {c : Coordinator} {xs : List Choice}
    (here : (s.after xs).Alike ⟨[], c⟩) (running : c.stopped = false) :
    ∃ ys, (s.after (ys ++ xs)).Alike ⟨[], settle c.startCalls (c.stopping .byName)⟩ ∧
      (s.after (ys ++ xs)).run.stopped = true ∧ ∀ zs n,
        (s.after (zs ++ (ys ++ xs))).run.IsLive n → .worker n ∈ c.ready ++ c.sleepers := by
  have asked : (s.after (.request .stop :: xs)).Alike ⟨[.stop], c⟩ := here.next (.request .stop)
  have goes : (Moment.mk [.stop] c).next (.request .start) =
      ⟨c.startCalls, c.stopping .byName⟩ := by
    simp only [Moment.next, perform, Coordinator.stop, running, List.append_nil]
    rfl
  have halted : (s.after (.request .start :: .request .stop :: xs)).Alike
      ⟨c.startCalls, c.stopping .byName⟩ := goes ▸ asked.next (.request .start)
  have stopped : (s.after (.request .start :: .request .stop :: xs)).run.stopped = true :=
    halted.stopped.symm
  obtain ⟨ys, there, -⟩ := exists_still_settle _ _ _ halted
  have whole : ys ++ [.request .start, .request .stop] ++ xs =
      ys ++ .request .start :: .request .stop :: xs := by simp
  refine ⟨ys ++ [.request .start, .request .stop], ?_, ?_, fun zs n live => ?_⟩
  · rw [whole]
    exact there
  · rw [whole]
    exact stopped_append stopped ys
  · rw [whole, ← List.append_assoc] at live
    have then_ := isLive_of_stopped stopped (zs ++ ys) live
    exact halted.mem_ready.2 (worker_mem_of_isLive stopped then_)

/-- **Whatever the order in which a stop wakes the workers**, the effect comes to a moment after
which the run goes on still until it is idle. -/
theorem exists_winding_down {c : Coordinator} {xs : List Choice}
    (here : (s.after xs).Alike ⟨[], c⟩) (running : c.stopped = false) (wake wake' : Waking)
    (requests : List Request) (w : ω) : ∃ zs ys ys',
      (s.after (zs ++ xs)).agenda = [] ∧ (s.after (zs ++ xs)).run.stopped = true ∧
      (s.Still (zs ++ xs) ys ∧ s.after (ys ++ (zs ++ xs)) =
        ⟨[], (c.carryOut wake x (.stop :: requests) w).1⟩) ∧
      (s.Still (zs ++ xs) ys' ∧ s.after (ys' ++ (zs ++ xs)) =
        ⟨[], (c.carryOut wake' x (.stop :: requests) w).1⟩) := by
  have perm : (wake'.order c.sleepers).Perm (wake.order c.sleepers) :=
    (wake'.perm _).trans (wake.perm _).symm
  -- the stop itself
  obtain ⟨ys₁, halted, stopped, heeds⟩ := exists_stopping here running
  obtain ⟨pre, post₁, none, goes⟩ := settle_requeue c.startCalls (c.stopping .byName)
  rw [none fun n o mem => by simp [startCalls] at mem] at goes
  have stops : ∀ k : Waking, c.ask k .stop = (settle c.startCalls (c.stopping .byName)).requeue
      (c.ready ++ k.order c.sleepers ++ post₁) := fun k =>
    (ask_stop_of_running k running).trans
      (goes _ (holds_of_perm ((k.perm c.sleepers).append_left c.ready)))
  have ready : (settle c.startCalls (c.stopping .byName)).ready =
      c.ready ++ c.sleepers ++ post₁ := congrArg Coordinator.ready (goes _ (holds_ready _))
  generalize settle c.startCalls (c.stopping .byName) = e at halted stops ready
  -- the other requests
  obtain ⟨ys₂, post₂, asked, goes'⟩ := exists_asks wake requests e (ys₁ ++ xs) halted stopped
  have ready' : (requests.foldl (ask wake) e).ready = e.ready ++ post₂ :=
    congrArg Coordinator.ready (goes' wake e.ready e.holds_ready)
  generalize requests.foldl (ask wake) e = f at asked goes' ready'
  have ends : ∀ k : Waking, (Request.stop :: requests).foldl (ask k) c =
      f.requeue (c.ready ++ k.order c.sleepers ++ (post₁ ++ post₂)) := by
    intro k
    have holds : e.Holds (c.ready ++ k.order c.sleepers ++ post₁) := by
      refine holds_of_perm ?_
      rw [ready]
      exact ((k.perm c.sleepers).append_left c.ready).append_right post₁
    rw [List.foldl_cons, stops, goes' k _ holds, List.append_assoc _ post₁]
  have alike : Moment.Alike ⟨[], f⟩
      ⟨[], f.requeue (c.ready ++ wake.order c.sleepers ++ (post₁ ++ post₂))⟩ := by
    refine ⟨rfl, _, ?_, rfl⟩
    show List.Perm _ f.ready
    rw [ready', ready, List.append_assoc _ post₁]
    exact ((wake.perm c.sleepers).append_left c.ready).append_right _
  -- all that stands before those who were woken has its turn
  have stopped' := stopped_append stopped ys₂
  have meets := meet_runUntilIdle x perm _ w c.ready (post₁ ++ post₂) _ rfl (asked.trans alike)
    stopped' fun n live => by
      have live' := heeds ys₂ n ((asked.trans alike).isLive_iff.1 live)
      exact ((wake.perm c.sleepers).append_left c.ready).mem_iff.2 live'
  rw [requeue_requeue, ← ends wake, ← ends wake'] at meets
  obtain ⟨ys₃, d, back, w', there, live, one, other⟩ := meets
  have stopped₃ := stopped_append stopped' ys₃
  -- and from there on nothing is invoked
  have ends_still : ∀ k : Waking, (k.order c.sleepers).Perm (wake.order c.sleepers) →
      c.carryOut k x (.stop :: requests) w =
        (d.requeue (k.order c.sleepers ++ back)).runUntilIdle x w' →
      ∃ ys, s.Still (ys₃ ++ (ys₂ ++ (ys₁ ++ xs))) ys ∧
        s.after (ys ++ (ys₃ ++ (ys₂ ++ (ys₁ ++ xs)))) =
          ⟨[], (c.carryOut k x (.stop :: requests) w).1⟩ := by
    intro k perm same
    have other : Moment.Alike ⟨[], d.requeue (wake.order c.sleepers ++ back)⟩
        ⟨[], d.requeue (k.order c.sleepers ++ back)⟩ := ⟨rfl, _, perm.append_right back, rfl⟩
    obtain ⟨ys, idle, still⟩ := exists_still_runUntilIdle x
      (d.requeue (k.order c.sleepers ++ back)) w' (k.order c.sleepers) back _ rfl
      (fun t mem => by
        have mem := (k.perm c.sleepers).mem_iff.1 mem
        obtain ⟨n, -, rfl⟩ := List.mem_map.1 (List.mem_of_mem_filter mem)
        exact ⟨n, rfl⟩)
      (there.trans other) stopped₃ fun n alive => perm.mem_iff.2 (live n alive)
    rw [← same] at idle
    refine ⟨ys, still, idle.eq_of_idle ?_⟩
    have rests := isIdle_runUntilIdle x (d.requeue (k.order c.sleepers ++ back)) w'
    rw [← same] at rests
    exact List.isEmpty_iff.1 rests
  obtain ⟨ys, still, last⟩ := ends_still wake (.refl _) one
  obtain ⟨ys', still', last'⟩ := ends_still wake' perm other
  refine ⟨ys₃ ++ (ys₂ ++ ys₁), ys, ys', ?_⟩
  simp only [List.append_assoc]
  exact ⟨there.agenda.symm, stopped₃, ⟨still, last⟩, still', last'⟩

end Setup

end StepFlow
