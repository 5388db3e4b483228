import StepFlow.Proofs.Course.Effect

/-! # The order of the queue

A run takes the task that comes first, so the order of the ready tasks decides who goes next. It
decides nothing else: what a task does, and what follows from that, is the same whatever stands
behind it, and what becomes ready on the way comes behind the others, or before all of them if it is
an execution that goes on at once.

So two runs that differ only in the order of the ready tasks are **alike**, and the same choices
keep them so.

Main statements: `Coordinator.advance_requeue` for turns, and `Moment.Alike.after` for courses. -/

namespace StepFlow

namespace Coordinator

/-- The run with another queue. -/
def requeue (c : Coordinator) (queue : List Task) : Coordinator := { c with ready := queue }

variable {c : Coordinator}

@[simp] theorem requeue_requeue (q q' : List Task) : (c.requeue q).requeue q' = c.requeue q' := rfl

@[simp] theorem requeue_ready (c : Coordinator) : c.requeue c.ready = c := rfl

/-! ## Calls -/

theorem Appends.requeue {f : Coordinator → Coordinator} (h : c.Appends f) :
    ∃ post, ∀ q, c.Holds q → f (c.requeue q) = (f c).requeue (q ++ post) := by
  obtain ⟨post, goes⟩ := h
  have here : f c = (f c).amid c.registry (c.ready ++ post) := goes _ _ c.holds_ready
  have registry : (f c).registry = c.registry := by
    rw [here]
    rfl
  refine ⟨post, fun q holds => (goes c.registry q holds).trans ?_⟩
  rw [← registry]
  rfl

theorem Yields.requeue {move : Coordinator → List Call × Coordinator} (h : c.Yields move) :
    ∃ post, ∀ q, c.Holds q →
      move (c.requeue q) = ((move c).1, (move c).2.requeue (q ++ post)) := by
  obtain ⟨post, goes⟩ := h
  have registry : (move c).2.registry = c.registry :=
    congrArg (fun result => result.2.registry) (goes c.registry c.ready c.holds_ready)
  refine ⟨post, fun q holds => (goes c.registry q holds).trans ?_⟩
  rw [← registry]
  rfl

/-- **A call puts tasks at either end of the queue**, and before the others only if it lets an
execution wait. -/
theorem perform_requeue (c : Coordinator) (call : Call) :
    ∃ pre post, ((∀ n o, call ≠ .pause n o) → pre = []) ∧ ∀ q, c.Holds q →
      (c.requeue q).perform call =
        ((c.perform call).1, (c.perform call).2.requeue (pre ++ q ++ post)) := by
  by_cases pauses : ∃ n o, call = .pause n o
  · obtain ⟨n, o, rfl⟩ := pauses
    obtain ⟨pre, post, goes⟩ := c.pause_amid n o
    have here : c.pause n o = (c.pause n o).amid c.registry (pre ++ c.ready ++ post) :=
      goes _ _ c.holds_ready
    have registry : (c.pause n o).registry = c.registry := by
      rw [here]
      rfl
    refine ⟨pre, post, fun none => absurd rfl (none n o), fun q holds => ?_⟩
    refine (congrArg (Prod.mk []) (goes c.registry q holds)).trans ?_
    rw [← registry]
    rfl
  · have goesOn : ∀ n o, call ≠ .pause n o := fun n o same => pauses ⟨n, o, same⟩
    by_cases plain : call.isSocial = false ∧ call.event? = none
    · obtain ⟨post, goes⟩ := (yields_perform plain.1 plain.2 goesOn).requeue
      exact ⟨[], post, fun _ => rfl, goes⟩
    · -- listeners do not look at the queue
      refine ⟨[], [], fun _ => rfl, fun q _ => ?_⟩
      rw [List.append_nil]
      cases call with
      | notify | deliver | subscribe | unsubscribe => rfl
      | _ => exact absurd ⟨rfl, rfl⟩ plain

/-- No call lets an execution wait. -/
theorem pause_notMem_perform {call : Call} (n : Name) (o : Option Outcome) :
    .pause n o ∉ (c.perform call).1 := by
  intro mem
  cases makes_of_mem_perform mem with
  | reaction _ _ requested => cases requested

/-- A queue that holds what is ready holds it when tasks are put at either end. -/
theorem Holds.append {d : Coordinator} {q pre post : List Task} (holds : c.Holds q)
    (ready : d.ready = pre ++ c.ready ++ post) : d.Holds (pre ++ q ++ post) := by
  intro t
  simp only [ready, List.mem_append, holds t]

/-- **Settling an agenda puts tasks at either end of the queue**, and before the others only if an
execution is let wait. -/
theorem settle_requeue (calls : List Call) (c : Coordinator) :
    ∃ pre post, ((∀ n o, .pause n o ∉ calls) → pre = []) ∧ ∀ q, c.Holds q →
      settle calls (c.requeue q) = (settle calls c).requeue (pre ++ q ++ post) := by
  fun_induction settle calls c with
  | case1 c =>
    refine ⟨[], [], fun _ => rfl, fun q _ => ?_⟩
    rw [settle_nil, List.nil_append, List.append_nil]
  | case2 call rest c result ih =>
    obtain ⟨pre, post, none, goes⟩ := c.perform_requeue call
    obtain ⟨pre', post', none', goes'⟩ := ih
    have ready : (c.perform call).2.ready = pre ++ c.ready ++ post :=
      congrArg (fun result => result.2.ready) (goes c.ready c.holds_ready)
    refine ⟨pre' ++ pre, post ++ post', fun free => ?_, fun q holds => ?_⟩
    · rw [none fun n o same => free n o (same ▸ List.mem_cons_self), List.append_nil]
      refine none' fun n o mem => ?_
      rcases List.mem_append.1 mem with new | old
      · exact pause_notMem_perform n o new
      · exact free n o (List.mem_cons_of_mem _ old)
    · rw [settle_cons, goes q holds, goes' _ (holds.append ready)]
      simp only [List.append_assoc]

/-! ## Turns -/

section Turns

variable {ω : Type} (x : Executor ω)

/-- **A turn puts tasks behind the queue.** -/
theorem turn_requeue (c : Coordinator) (w : ω) (t : Task) : ∃ post, ∀ q, c.Holds q →
    (c.requeue q).turn x w t =
      ((c.turn x w t).1, (c.turn x w t).2.1.requeue (q ++ post), (c.turn x w t).2.2) := by
  cases t with
  | worker n =>
    obtain ⟨post, goes⟩ := (c.yields_workerTurn n).requeue
    exact ⟨post, fun q holds => by simp only [turn, goes q holds]⟩
  | executor n =>
    have part : ∀ q, (c.requeue q).part? n = c.part? n := fun _ => rfl
    cases hp : c.part? n with
    | none =>
      obtain ⟨post, goes⟩ := (c.appends_executorTurn n).requeue
      exact ⟨post, fun q holds => by simp only [turn, part, hp, goes q holds]⟩
    | some which =>
      refine ⟨[], fun q _ => ?_⟩
      simp only [turn, part, hp, List.append_nil]
      cases which <;> rfl

/-- Only an execution is let wait in a turn. -/
theorem pause_notMem_worker {w : ω} {k n : Name} {o : Option Outcome} :
    .pause n o ∉ (c.turn x w (.worker k)).1 := by
  intro mem
  have does := workerTurn_spec c k
  simp only [turn] at mem
  generalize (c.workerTurn k).1 = calls at does mem
  generalize (c.workerTurn k).2 = d at does
  cases does with
  | _ => simp at mem

/-- **A turn and what follows from it puts tasks at either end of the queue**, and behind it if it
is the turn of a worker. -/
theorem advance_requeue (c : Coordinator) (t : Task) (rest : List Task) (w : ω) :
    ∃ pre post, (∀ n, t = .worker n → pre = []) ∧ ∀ q, (c.requeue rest).Holds q →
      c.advance x t q w =
        ((c.advance x t rest w).1.requeue (pre ++ q ++ post), (c.advance x t rest w).2) := by
  obtain ⟨post, goes⟩ := turn_requeue x (c.requeue rest) w t
  obtain ⟨pre, post', none, settles⟩ := settle_requeue ((c.requeue rest).turn x w t).1
    ((c.requeue rest).turn x w t).2.1
  have ready : ((c.requeue rest).turn x w t).2.1.ready = [] ++ (c.requeue rest).ready ++ post :=
    congrArg (fun result => result.2.1.ready) (goes rest (holds_ready _))
  refine ⟨pre, post ++ post', fun n same => ?_, fun q holds => ?_⟩
  · subst same
    exact none fun k o mem => pause_notMem_worker x mem
  · have turns := goes q holds
    rw [requeue_requeue] at turns
    have settled := settles _ (holds.append ready)
    rw [List.nil_append] at settled
    show (settle ((c.requeue q).turn x w t).1 ((c.requeue q).turn x w t).2.1,
      ((c.requeue q).turn x w t).2.2) = _
    rw [turns]
    simp only [settled, List.append_assoc]
    rfl

end Turns

end Coordinator

/-! ## Courses -/

/-- Two moments are **alike** if they differ only in the order of the ready tasks. -/
structure Moment.Alike (m m' : Moment) : Prop where
  agenda : m'.agenda = m.agenda
  run : ∃ q, q.Perm m.run.ready ∧ m'.run = m.run.requeue q

namespace Coordinator

/-- A choice makes the same of a queue in another order. -/
theorem choose_requeue (c : Coordinator) (x : Choice) {q : List Task} (perm : q.Perm c.ready) :
    (c.choose x).Alike ((c.requeue q).choose x) := by
  cases x with
  | request r =>
    cases r with
    | start | stop => exact ⟨rfl, q, perm, rfl⟩
    | release n =>
      obtain ⟨post, goes⟩ := (c.appends_release n).requeue
      have ready : (c.release n).ready = c.ready ++ post :=
        congrArg Coordinator.ready (goes c.ready c.holds_ready)
      refine ⟨rfl, q ++ post, ?_, goes q (holds_of_perm perm)⟩
      show (q ++ post).Perm (c.release n).ready
      rw [ready]
      exact perm.append_right post
  | subscribe | unsubscribe => exact ⟨rfl, q, perm, rfl⟩
  | turn t burst =>
    by_cases isReady : t ∈ c.ready
    · -- the turn is that of a task which is not in the queue any more
      obtain ⟨post, goes⟩ :=
        turn_requeue (fun _ _ _ => (burst, ())) (c.requeue (c.ready.erase t)) () t
      have less := perm.erase t
      have turns := goes (q.erase t) (holds_of_perm less)
      have ready := congrArg (fun result => result.2.1.ready) (goes _ (holds_ready _))
      have there : t ∈ (c.requeue q).ready := perm.mem_iff.2 isReady
      rw [choose, if_pos isReady, choose, if_pos there]
      refine ⟨congrArg (·.1) turns, q.erase t ++ post, ?_, congrArg (·.2.1) turns⟩
      refine (less.append_right post).trans (.of_eq ?_)
      exact ready.symm
    · have there : t ∉ (c.requeue q).ready := fun mem => isReady (perm.mem_iff.1 mem)
      rw [choose, if_neg isReady, choose, if_neg there]
      exact ⟨rfl, q, perm, rfl⟩

/-- A call makes the same of a queue in another order. -/
theorem alike_perform (c : Coordinator) (call : Call) (rest : List Call) {q : List Task}
    (perm : q.Perm c.ready) :
    Moment.Alike ⟨(c.perform call).1 ++ rest, (c.perform call).2⟩
      ⟨((c.requeue q).perform call).1 ++ rest, ((c.requeue q).perform call).2⟩ := by
  obtain ⟨pre, post, -, goes⟩ := c.perform_requeue call
  have ready : (c.perform call).2.ready = pre ++ c.ready ++ post :=
    congrArg (fun result => result.2.ready) (goes c.ready c.holds_ready)
  rw [goes q (holds_of_perm perm)]
  refine ⟨rfl, pre ++ q ++ post, ?_, rfl⟩
  show (pre ++ q ++ post).Perm (c.perform call).2.ready
  rw [ready]
  exact (perm.append_left pre).append_right post

end Coordinator

namespace Moment.Alike

variable {m m' m'' : Moment}

theorem refl (m : Moment) : m.Alike m := ⟨rfl, m.run.ready, .refl _, rfl⟩

theorem trans (a : m.Alike m') (b : m'.Alike m'') : m.Alike m'' := by
  obtain ⟨agenda, q, perm, run⟩ := a
  obtain ⟨agenda', q', perm', run'⟩ := b
  rw [run] at perm' run'
  exact ⟨agenda'.trans agenda, q', perm'.trans perm, run'⟩

/-- **A move makes alike moments of alike moments.** -/
theorem next (a : m.Alike m') (x : Choice) : (m.next x).Alike (m'.next x) := by
  obtain ⟨agenda, c⟩ := m
  obtain ⟨_, d⟩ := m'
  obtain ⟨same, q, perm, run⟩ := a
  cases same
  cases run
  cases agenda with
  | nil => exact c.choose_requeue x perm
  | cons call rest => exact c.alike_perform call rest perm

/-- **The same choices make alike moments of alike moments.** -/
theorem after (a : m.Alike m') (xs : List Choice) : (m.after xs).Alike (m'.after xs) := by
  induction xs with
  | nil => exact a
  | cons x earlier ih => exact ih.next x

/-- Alike moments are the same once they are idle. -/
theorem eq_of_idle (a : m.Alike m') (idle : m'.run.ready = []) : m = m' := by
  obtain ⟨agenda, c⟩ := m
  obtain ⟨_, d⟩ := m'
  obtain ⟨same, q, perm, run⟩ := a
  cases same
  cases run
  have none : q = [] := idle
  subst none
  have ready : c.ready = [] := perm.symm.eq_nil
  rw [← ready]

end Moment.Alike

/-- However a stop wakes the workers that wait, they are ready after it. -/
theorem Coordinator.alike_ask (wake : Waking) (c : Coordinator) (r : Request) :
    Moment.Alike ⟨[], c.request r⟩ ⟨[], c.ask wake r⟩ := by
  rw [← ask_byName]
  cases r with
  | start | release n => exact .refl _
  | stop =>
    cases stopped : c.stopped with
    | true =>
      rw [ask_stop_of_stopped _ stopped, ask_stop_of_stopped _ stopped]
      exact .refl _
    | false =>
      rw [ask_stop_of_running _ stopped, ask_stop_of_running _ stopped]
      obtain ⟨pre, post, -, goes⟩ := settle_requeue c.startCalls (c.stopping .byName)
      have perm : (c.ready ++ wake.order c.sleepers).Perm (c.stopping .byName).ready :=
        (wake.perm c.sleepers).append_left c.ready
      have ready : (settle c.startCalls (c.stopping .byName)).ready =
          pre ++ (c.stopping .byName).ready ++ post :=
        congrArg Coordinator.ready (goes _ (holds_ready _))
      refine ⟨rfl, pre ++ (c.ready ++ wake.order c.sleepers) ++ post, ?_,
        goes _ (holds_of_perm perm)⟩
      show List.Perm _ (settle c.startCalls (c.stopping .byName)).ready
      rw [ready]
      exact (perm.append_left pre).append_right post

/-! ## Effects are courses -/

namespace Moment.Alike

variable {m : Moment} {c : Coordinator} (a : m.Alike ⟨[], c⟩) (wake : Waking)

include a

theorem exists_ask (r : Request) : ∃ xs, (m.after xs).Alike ⟨[], c.ask wake r⟩ := by
  obtain ⟨xs, asked⟩ := c.exists_after_request r
  exact ⟨xs, (a.after xs).trans (asked ▸ c.alike_ask wake r)⟩

theorem exists_asks (requests : List Request) :
    ∃ xs, (m.after xs).Alike ⟨[], requests.foldl (Coordinator.ask wake) c⟩ := by
  induction requests generalizing m c with
  | nil => exact ⟨[], a⟩
  | cons r rest ih =>
    obtain ⟨xs, asked⟩ := a.exists_ask wake r
    obtain ⟨ys, others⟩ := ih asked
    exact ⟨ys ++ xs, by rw [Moment.after_append]; exact others⟩

/-- **An effect is a course**, in whatever order a stop wakes the workers. -/
theorem exists_carryOut {ω : Type} (x : Executor ω) (requests : List Request) (w : ω) :
    ∃ xs, m.after xs = ⟨[], (c.carryOut wake x requests w).1⟩ := by
  obtain ⟨xs, asked⟩ := a.exists_asks wake requests
  obtain ⟨ys, ran⟩ :=
    Coordinator.exists_after_runUntilIdle x (requests.foldl (Coordinator.ask wake) c) w
  refine ⟨ys ++ xs, ?_⟩
  rw [Moment.after_append]
  have there : Moment.Alike _ ⟨[], (c.carryOut wake x requests w).1⟩ := ran ▸ asked.after ys
  refine there.eq_of_idle ?_
  exact List.isEmpty_iff.1 (Coordinator.isIdle_runUntilIdle x _ w)

end Moment.Alike

end StepFlow
