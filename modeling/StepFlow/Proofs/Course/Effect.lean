import StepFlow.Proofs.Course.Bystander

/-! # Effects

An **effect** is what the world does to a run before it looks at it again: some requests are carried
out, one after the other, and then the run goes on until it is idle.

The first stop wakes the workers that wait, and nothing says in which order they are woken: the
program wakes them by name, but a scheduler may choose any order. A **waking** is such a choice, and
`Coordinator.ask` carries out a request with any of them.

Main statement: `Coordinator.exists_relayed_carryOut`, that among bystanders an effect takes place
as with an eavesdropper in place of all listeners. -/

namespace StepFlow

/-- A **waking**: the order in which the workers are woken that a stop wakes together. -/
structure Waking where
  /-- The tasks in that order. -/
  order : List Task → List Task
  /-- Each of them is woken once, and no other. -/
  perm : ∀ tasks, (order tasks).Perm tasks

/-- Workers are woken by name, as they are given. -/
def Waking.byName : Waking := ⟨id, fun _ => .refl _⟩

namespace Coordinator

/-- The state in which a stop goes on: it is stopped, and the workers that wait are woken. -/
def stopping (wake : Waking) (c : Coordinator) : Coordinator :=
  { c with stopped := true, ready := c.ready ++ wake.order c.sleepers }

/-- Carries out a request, where a stop wakes the workers in the order of a waking. -/
def ask (wake : Waking) (c : Coordinator) : Request → Coordinator
  | .start => settle c.startCalls c
  | .stop => if c.stopped then c else settle c.startCalls (c.stopping wake)
  | .release n => c.release n

/-- A second stop changes nothing. -/
theorem ask_stop_of_stopped (wake : Waking) {c : Coordinator} (h : c.stopped = true) :
    c.ask wake .stop = c := if_pos h

/-- The first stop wakes the workers that wait and evaluates the roots. -/
theorem ask_stop_of_running (wake : Waking) {c : Coordinator} (h : c.stopped = false) :
    c.ask wake .stop = settle c.startCalls (c.stopping wake) :=
  if_neg (by rw [h]; decide)

/-- The program wakes the workers by name. -/
theorem ask_byName (c : Coordinator) (r : Request) : c.ask .byName r = c.request r := by
  cases r with
  | start | release n => rfl
  | stop =>
    rw [request, settle_cons]
    simp only [ask, perform, stop]
    cases c.stopped with
    | true => exact (settle_nil c).symm
    | false => exact congrArg (settle · _) (List.append_nil _).symm

/-- **Two wakings differ only in the stop that takes effect**: requests come to the same with both
of them, or at least those before a stop of a run that is not stopped by then. -/
theorem asks_eq_or_exists_stop (wake wake' : Waking) (requests : List Request) (c : Coordinator) :
    requests.foldl (ask wake) c = requests.foldl (ask wake') c ∨
      ∃ before later, requests = before ++ .stop :: later ∧
        before.foldl (ask wake) c = before.foldl (ask wake') c ∧
        (before.foldl (ask wake) c).stopped = false := by
  induction requests generalizing c with
  | nil => exact .inl rfl
  | cons r rest ih =>
    by_cases effective : r = .stop ∧ c.stopped = false
    · exact .inr ⟨[], rest, by rw [effective.1]; rfl, rfl, effective.2⟩
    · have same : c.ask wake r = c.ask wake' r := by
        cases r with
        | start | release n => rfl
        | stop =>
          have stopped : c.stopped = true := by simpa using effective
          rw [ask_stop_of_stopped wake stopped, ask_stop_of_stopped wake' stopped]
      rcases ih (c.ask wake r) with all | ⟨before, later, split, first, running⟩
      · refine .inl ?_
        rw [List.foldl_cons, List.foldl_cons, all, same]
      · refine .inr ⟨r :: before, later, by rw [split, List.cons_append], ?_, running⟩
        rw [List.foldl_cons, List.foldl_cons, first, same]

/-- **Carries out an effect**: some requests, and then the run goes on until it is idle. -/
def carryOut {ω : Type} (wake : Waking) (x : Executor ω) (requests : List Request)
    (c : Coordinator) (w : ω) : Coordinator × ω :=
  (requests.foldl (ask wake) c).runUntilIdle x w

/-- What a rehearsal plays is an effect. -/
theorem play_eq_carryOut (r : Rehearsal) (requests : List Request) :
    (r.play requests).2.run =
      (r.run.carryOut .byName r.executor (requests.filter r.accepts) ()).1 := by
  have same : ask .byName = request := funext fun c => funext fun r => ask_byName c r
  rw [carryOut, same]
  rfl

/-! ## Effects among bystanders -/

variable {c : Coordinator}

private theorem isSocial_of_mem_startCalls {call : Call} (mem : call ∈ c.startCalls) :
    call.isSocial = false := by
  obtain ⟨s, -, rfl⟩ := List.mem_map.1 mem
  rfl

theorem exists_relayed_ask (wake : Waking) (r : Request) (b : c.registry.Bystanders) :
    ∃ es, Relayed c (c.ask wake r) es ∧
      ∀ log, (c.overheard log).ask wake r = (c.ask wake r).overheard (es ++ log) := by
  cases r with
  | start => exact exists_relayed_settle _ b fun _ mem => isSocial_of_mem_startCalls mem
  | stop =>
    cases stopped : c.stopped with
    | true =>
      refine ⟨[], .of_registry b (by rw [ask_stop_of_stopped wake stopped]), fun log => ?_⟩
      rw [ask_stop_of_stopped wake stopped]
      exact ask_stop_of_stopped wake (c := c.overheard log) stopped
    | false =>
      obtain ⟨es, relayed, agrees⟩ := exists_relayed_settle (c := c.stopping wake) c.startCalls b
        fun _ mem => isSocial_of_mem_startCalls mem
      rw [ask_stop_of_running wake stopped]
      refine ⟨es, ?_, fun log => ?_⟩
      · have quiet := (Relayed.of_registry (d := c.stopping wake) b rfl).trans relayed
        rwa [List.append_nil] at quiet
      · rw [← agrees]
        exact ask_stop_of_running wake (c := c.overheard log) stopped
  | release n =>
    refine ⟨[], .of_registry b ?_, fun log => (c.appends_release n).overheard log⟩
    exact c.registry_choose (.request (.release n))

theorem exists_relayed_asks (wake : Waking) (requests : List Request)
    (b : c.registry.Bystanders) :
    ∃ es, Relayed c (requests.foldl (ask wake) c) es ∧ ∀ log,
      requests.foldl (ask wake) (c.overheard log) =
        (requests.foldl (ask wake) c).overheard (es ++ log) := by
  induction requests generalizing c with
  | nil => exact ⟨[], .of_registry b rfl, fun _ => rfl⟩
  | cons r rest ih =>
    obtain ⟨es, here, agrees⟩ := exists_relayed_ask wake r b
    obtain ⟨es', later, agrees'⟩ := ih here.bystanders
    refine ⟨es' ++ es, here.trans later, fun log => ?_⟩
    rw [List.foldl_cons, agrees, agrees', List.append_assoc]
    rfl

/-- **Among bystanders an effect takes place as with the eavesdropper**, and what the eavesdropper
hears is relayed. -/
theorem exists_relayed_carryOut {ω : Type} (wake : Waking) (x : Executor ω)
    (requests : List Request) (w : ω) (b : c.registry.Bystanders) :
    ∃ es, Relayed c (c.carryOut wake x requests w).1 es ∧ ∀ log,
      (c.overheard log).carryOut wake x requests w =
        ((c.carryOut wake x requests w).1.overheard (es ++ log),
          (c.carryOut wake x requests w).2) := by
  obtain ⟨es, asked, agrees⟩ := exists_relayed_asks wake requests b
  obtain ⟨es', ran, agrees'⟩ :=
    exists_relayed_runUntilIdle x (requests.foldl (ask wake) c) w asked.bystanders
  refine ⟨es' ++ es, asked.trans ran, fun log => ?_⟩
  rw [carryOut, agrees, agrees', List.append_assoc]
  rfl

end Coordinator

end StepFlow
