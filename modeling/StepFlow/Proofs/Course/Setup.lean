import StepFlow.Proofs.Course.HandOver
import StepFlow.Proofs.Course.Pool
import StepFlow.Proofs.Course.Watch
import StepFlow.Proofs.Flow.Accepted

/-! # Runs of accepted flows

A **setup** is a flow that was accepted together with a coordinator that was created for it, and a
run of it is a list of choices. Every moment of every run satisfies the invariants of the other
modules all at once, and this is the only fact about runs that theorems about whole runs start from.
The invariants ask of the flow only that its parts agree with each other, not that it can be
scheduled.

Main statements: `Sound.after` and `Setup.sound`. -/

namespace StepFlow

/-- A coordinator that was created has workers and is at the beginning of its run. -/
theorem Coordinator.eq_initial_of_create {f : Flow} {workers : Nat} {hasRuntime : Bool}
    {registry : Registry} {c : Coordinator}
    (created : create f workers hasRuntime registry = .ok c) :
    0 < workers ∧ c = .initial f workers registry := by
  unfold create at created
  split at created
  · cases created
  · rename_i some_
    split at created
    · cases created
    · split at created
      · cases created
      · exact ⟨Nat.pos_of_ne_zero some_, (Except.ok.inj created).symm⟩

/-- Whether there is a coordinator depends neither on the flow nor on the listeners. -/
theorem Coordinator.create_of_create {f f' : Flow} {workers : Nat} {hasRuntime : Bool}
    {registry registry' : Registry} {c : Coordinator}
    (created : create f workers hasRuntime registry = .ok c) :
    create f' workers hasRuntime registry' = .ok (.initial f' workers registry') := by
  unfold create at created ⊢
  split at created
  · cases created
  · rename_i some_
    rw [if_neg some_]
    split at created
    · cases created
    · rename_i runtime
      rw [if_neg runtime]
      split at created
      · cases created
      · rename_i few
        rw [if_neg few]

/-- A **setup**: an accepted flow and a coordinator created for it. -/
structure Setup where
  /-- What the flow was declared as. -/
  declarations : List Declaration
  /-- The flow. -/
  flow : Flow
  /-- The declarations were accepted. -/
  declared : Flow.declare declarations = .ok flow
  /-- The number of workers. -/
  workers : Nat
  /-- Whether there is a runtime. -/
  hasRuntime : Bool := true
  /-- The listeners that are there from the start. -/
  registry : Registry := {}
  /-- The coordinator. -/
  coordinator : Coordinator
  /-- The coordinator was created. -/
  created : Coordinator.create flow workers hasRuntime registry = .ok coordinator

namespace Setup

variable (s : Setup)

/-- The moment before anything has happened. -/
def start : Moment := ⟨[], s.coordinator⟩

/-- The moment after some choices, the latest first. -/
def after (xs : List Choice) : Moment := s.start.after xs

/-- The history of the moment after some choices. -/
def past (xs : List Choice) : History := s.start.past xs

/-- Whether a start or a stop was requested. -/
def asked (xs : List Choice) : Bool := s.start.asked xs

theorem after_cons (x : Choice) (xs : List Choice) : s.after (x :: xs) = (s.after xs).next x := rfl

theorem past_cons (x : Choice) (xs : List Choice) :
    s.past (x :: xs) = s.after xs :: s.past xs := rfl

theorem wellFormed : s.flow.WellFormed := Flow.wellFormed_of_declare s.declared

theorem coordinator_eq : 0 < s.workers ∧ s.coordinator = .initial s.flow s.workers s.registry :=
  Coordinator.eq_initial_of_create s.created

theorem start_eq : s.start = .initial s.flow s.workers s.registry := by
  rw [start, s.coordinator_eq.2]
  rfl

end Setup

/-! ## All invariants -/

/-- A moment of a run is **sound** when it satisfies all invariants of runs. -/
structure Sound (f : Flow) (workers : Nat) (asked : Bool) (m : Moment) (h : History) : Prop where
  orderly : Orderly f m
  recorded : Recorded f m h
  counted : Counted f m
  judged : Judged f m h
  posted : Posted f m h
  handed : Handed f m h
  permits : Permits workers 0 m.run
  alert : Alert m.run
  watched : Watched f asked m

namespace Sound

variable {f : Flow} {workers : Nat} {asked : Bool} {m : Moment} {h : History}

/-- Leaves with workers are steps of the flow. -/
theorem staged_mem (s : Sound f workers asked m h) {n : Name}
    (hn : (m.run.stages.get? n).isSome = true) : n ∈ m.run.flow.names := by
  have committed := ((s.posted.staged n).1 hn).2
  have left : m.status n ≠ .waiting := by
    rcases committed with hv | hv <;> exact s.recorded.status_ne_waiting hv
  rw [s.orderly.flow]
  exact Flow.contains_iff_mem_names.1 (s.orderly.contains_of_status left)

/-- **Every move keeps a moment sound.** -/
theorem next (con : f.Consistent) (s : Sound f workers asked m h) (x : Choice) :
    Sound f workers (asked || (m.agenda.isEmpty && x.asks)) (m.next x) (m :: h) := by
  have c := s.orderly.change_next x
  have shift := s.orderly.shift_next x
  exact
    { orderly := s.orderly.next con x
      recorded := s.recorded.change con s.orderly c
      counted := s.counted.change con s.orderly c
      judged := s.judged.change con s.orderly s.counted s.recorded c
        shift.stopped_stays
      posted := s.posted.next con s.orderly s.recorded x
      handed := s.handed.next con s.orderly s.recorded s.judged s.posted x
      permits := s.permits.shift shift fun _ => s.posted.free s.recorded
      alert := s.alert.shift shift fun _ => s.staged_mem
      watched := s.watched.next con s.orderly x }

theorem initial (con : f.Consistent) (workers : Nat) (registry : Registry) :
    Sound f workers false (.initial f workers registry) [] where
  orderly := Moment.orderly_initial f workers registry
  recorded := .initial f workers registry
  counted := .initial con workers registry
  judged := .initial con workers registry
  posted := .initial f workers registry
  handed := .initial f workers registry
  permits := .initial f workers registry
  alert := .initial f workers registry
  watched := .initial f workers registry

/-- **Every moment of every run of a consistent flow is sound**, whether or not its phases can be
ranked. -/
theorem after (con : f.Consistent) (workers : Nat) (registry : Registry) (xs : List Choice) :
    Sound f workers ((Moment.initial f workers registry).asked xs)
      ((Moment.initial f workers registry).after xs)
      ((Moment.initial f workers registry).past xs) := by
  induction xs with
  | nil => exact .initial con workers registry
  | cons x earlier ih => exact ih.next con x

end Sound

/-- **Every moment of every run of an accepted flow is sound.** -/
theorem Setup.sound (s : Setup) (xs : List Choice) :
    Sound s.flow s.workers (s.asked xs) (s.after xs) (s.past xs) := by
  unfold Setup.asked Setup.after Setup.past
  rw [s.start_eq]
  exact .after s.wellFormed s.workers s.registry xs

/-! ## A small setup -/

/-- A small setup: a leaf, a group that waits for it, and a leaf in the group. -/
def Setup.sample : Setup where
  declarations := [.leaf "a" {}, .leaf "b" {}, .group "g", .member "b" "g",
    .wait { src := "g", dst := "a" }]
  flow :=
    { steps := [⟨"a", none, .leaf {}⟩, ⟨"b", some "g", .leaf {}⟩, ⟨"g", none, .group ["b"]⟩]
      dependencies := [⟨"g", "a", false⟩] }
  declared := by
    unfold Flow.declare Flow.assemble
    -- merge sort does not reduce, but what it sorts here is sorted already
    rw [List.mergeSort_of_pairwise (by decide)]
    decide +kernel
  workers := 1
  coordinator := _
  created := rfl

/-- The choices that give a task its turn and then settle some calls. -/
def Choice.turns (calls : Nat) (task : Task) (outcome : Outcome) : List Choice :=
  List.replicate calls (.turn task {}) ++ [.turn task { outcome := some outcome }]

/-- The choices that take a leaf from its worker to its executor and back. -/
def Choice.plays (leaf : Name) (outcome : Outcome) : List Choice :=
  turns 16 (.worker leaf) outcome ++ turns 1 (.executor leaf) outcome ++
    turns 2 (.worker leaf) outcome

/-- A run of the small setup in which the executors end with the given outcomes. -/
def Setup.sampleRun (first second : Outcome) : List Choice :=
  Choice.plays "b" second ++ Choice.plays "a" first ++ [.turn (.worker "a") {}, .request .start]

end StepFlow
