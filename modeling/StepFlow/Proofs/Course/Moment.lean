import StepFlow.Rehearsal

/-! # The course of a run

A run goes on in small moves. While there is something left to do on the spot, a **move** carries
out the first call of the agenda. When there is nothing left, the world makes a **choice**: a start,
a stop or a release is requested, a listener is added or removed, or one of the ready tasks gets its
turn, whichever it is, and an executor that is asked in its turn answers with any burst at all.

So every course that a run can take, whatever its executors and its listeners do and in whatever
order its tasks are polled, is a list of choices, and what holds after every list of choices holds
at every moment of every run, also in the middle of a cascade and inside a listener.

Main statements: `Coordinator.exists_after_runUntilIdle` and `Rehearsal.exists_after_play`, that
the runs of the program are such courses. -/

namespace StepFlow

/-- A **moment** of a run: the calls that are left to do on the spot, and the state. -/
structure Moment where
  /-- What is left to do on the spot. -/
  agenda : List Call := []
  /-- The state of the run. -/
  run : Coordinator

/-- The **history** of a run: the moments that it left behind, the latest first. -/
abbrev History := List Moment

/-- A **choice** of the world when nothing is left to do on the spot. -/
inductive Choice where
  /-- A request from outside. -/
  | request (request : Request)
  /-- A listener is added. -/
  | subscribe (listener : Listener)
  /-- The listener with a number is removed. -/
  | unsubscribe (number : Nat)
  /-- A ready task gets its turn; the burst is the answer of its executor, if it is asked. -/
  | turn (task : Task) (burst : Burst)

/-- Whether a choice starts or stops the run. -/
def Choice.asks : Choice → Bool
  | .request .start | .request .stop => true
  | .request (.release _) | .subscribe _ | .unsubscribe _ | .turn _ _ => false

/-- The moment right after a choice; a task that is not ready gets no turn. -/
def Coordinator.choose (c : Coordinator) : Choice → Moment
  | .request .start => ⟨c.startCalls, c⟩
  | .request .stop => ⟨[.stop], c⟩
  | .request (.release n) => ⟨[], c.release n⟩
  | .subscribe l => ⟨[.subscribe l], c⟩
  | .unsubscribe number => ⟨[.unsubscribe number], c⟩
  | .turn t burst =>
    if t ∈ c.ready then
      let after := { c with ready := c.ready.erase t }.turn (fun _ _ _ => (burst, ())) () t
      ⟨after.1, after.2.1⟩
    else ⟨[], c⟩

namespace Moment

/-- **One move**: the first call of the agenda is carried out, or the choice is followed when there
is none. -/
def next (m : Moment) (x : Choice) : Moment :=
  match m.agenda with
  | [] => m.run.choose x
  | call :: rest =>
    let after := m.run.perform call
    ⟨after.1 ++ rest, after.2⟩

/-- The moment after some moves, the latest choice first. -/
def after (m : Moment) : List Choice → Moment
  | [] => m
  | x :: earlier => (m.after earlier).next x

/-- The moments that were left behind, the latest first. -/
def past (m : Moment) : List Choice → History
  | [] => []
  | _ :: earlier => m.after earlier :: m.past earlier

/-- Whether a start or a stop was requested from outside. -/
def asked (m : Moment) : List Choice → Bool
  | [] => false
  | x :: earlier => m.asked earlier || ((m.after earlier).agenda.isEmpty && x.asks)

/-- Whether nothing is left to do on the spot and no task is ready. -/
def isIdle (m : Moment) : Bool := m.agenda.isEmpty && m.run.isIdle

/-- The status of a step at a moment. -/
def status (m : Moment) (n : Name) : Status := m.run.status n

/-! ## What a move amounts to -/

/-- The step that the next move commits, and the directive it is committed with. -/
def commit? (m : Moment) : Option (Name × Directive) :=
  match m.agenda with
  | .evaluate n :: _ =>
    match m.run.flow.step? n with
    | some s => if m.run.directive s = .noop then none else some (n, m.run.directive s)
    | none => none
  | _ => none

/-- The step whose end the next move propagates, and its exit code: the end of a step is told first
of all. -/
def ended? (m : Moment) : Option (Name × Int) :=
  match m.agenda with
  | call :: _ =>
    match (m.run.perform call).1 with
    | .notify (.completed n code) :: _ => some (n, code)
    | _ => none
  | [] => none

end Moment

/-- How a step leaves its waiting: it is committed to run or to be skipped, or it is claimed when a
group that it lies under is committed to be skipped. -/
inductive Verdict where
  | run
  | skip
  | claim
deriving Repr, DecidableEq

/-- How a step leaves its waiting in the next move, if it does. -/
def Moment.verdict? (m : Moment) (n : Name) : Option Verdict :=
  match m.commit? with
  | some (k, .run) => if k = n then some .run else none
  | some (k, .skip) =>
    if k = n then some .skip
    else if n ∈ (m.run.flow.below k).map (·.name) then some .claim else none
  | _ => none

namespace History

/-- How a step left its waiting; the latest time counts. -/
def verdict (h : History) (n : Name) : Option Verdict := h.findSome? (·.verdict? n)

/-- How often a step has left its waiting. -/
def departures (h : History) (n : Name) : Nat := h.countP fun m => (m.verdict? n).isSome

/-- The ends that were propagated, the latest first. -/
def ends (h : History) : List (Name × Int) := h.filterMap Moment.ended?

@[simp] theorem verdict_nil (n : Name) : verdict [] n = none := rfl

theorem verdict_cons (m : Moment) (h : History) (n : Name) :
    verdict (m :: h) n = (m.verdict? n).or (verdict h n) := by
  rw [verdict, List.findSome?_cons]
  cases m.verdict? n <;> rfl

@[simp] theorem ends_nil : ends [] = [] := rfl

theorem ends_cons (m : Moment) (h : History) : ends (m :: h) = m.ended?.toList ++ ends h := by
  unfold ends
  cases hm : m.ended? <;> simp [hm]

end History

/-! ## Courses one after the other -/

namespace Moment

@[simp] theorem after_nil (m : Moment) : m.after [] = m := rfl

@[simp] theorem after_cons (m : Moment) (x : Choice) (earlier : List Choice) :
    m.after (x :: earlier) = (m.after earlier).next x := rfl

@[simp] theorem past_cons (m : Moment) (x : Choice) (earlier : List Choice) :
    m.past (x :: earlier) = m.after earlier :: m.past earlier := rfl

theorem after_append (m : Moment) (later earlier : List Choice) :
    m.after (later ++ earlier) = (m.after earlier).after later := by
  induction later with
  | nil => rfl
  | cons x later ih => rw [List.cons_append, after_cons, after_cons, ih]

theorem past_append (m : Moment) (later earlier : List Choice) :
    m.past (later ++ earlier) = (m.after earlier).past later ++ m.past earlier := by
  induction later with
  | nil => rfl
  | cons x later ih =>
    rw [List.cons_append, past_cons, past_cons, ih, after_append, List.cons_append]

/-- The moments of the past are those that an earlier part of the course leads to. -/
theorem mem_past_iff {m k : Moment} {xs : List Choice} :
    k ∈ m.past xs ↔ ∃ x later earlier, xs = later ++ x :: earlier ∧ m.after earlier = k := by
  induction xs with
  | nil => simp [past]
  | cons y ys ih =>
    rw [past_cons, List.mem_cons, ih]
    constructor
    · rintro (rfl | ⟨x, later, earlier, rfl, rfl⟩)
      · exact ⟨y, [], ys, rfl, rfl⟩
      · exact ⟨x, y :: later, earlier, rfl, rfl⟩
    · rintro ⟨x, later, earlier, split, rfl⟩
      cases later with
      | nil =>
        cases split
        exact .inl rfl
      | cons z later =>
        cases split
        exact .inr ⟨x, later, earlier, rfl, rfl⟩

end Moment

/-! ## The runs of the program are courses -/

namespace Coordinator

/-- An agenda that is settled has been carried out move by move. -/
theorem exists_after_settle (calls : List Call) (c : Coordinator) :
    ∃ xs, (Moment.mk calls c).after xs = ⟨[], settle calls c⟩ := by
  fun_induction settle calls c with
  | case1 c => exact ⟨[], rfl⟩
  | case2 call rest c result ih =>
    obtain ⟨xs, hxs⟩ := ih
    -- while a call is left the choice does not matter
    refine ⟨xs ++ [.request .start], ?_⟩
    rw [Moment.after_append]
    exact hxs

theorem exists_after_request (c : Coordinator) (r : Request) :
    ∃ xs, (Moment.mk [] c).after xs = ⟨[], c.request r⟩ := by
  cases r with
  | release n => exact ⟨[.request (.release n)], rfl⟩
  | start =>
    obtain ⟨xs, hxs⟩ := exists_after_settle c.startCalls c
    refine ⟨xs ++ [.request .start], ?_⟩
    rw [Moment.after_append]
    exact hxs
  | stop =>
    obtain ⟨xs, hxs⟩ := exists_after_settle [.stop] c
    refine ⟨xs ++ [.request .stop], ?_⟩
    rw [Moment.after_append]
    exact hxs

/-- The turn of the task that comes first is a choice of that task. -/
theorem exists_choose_turn {ω : Type} (x : Executor ω) {c : Coordinator} {t : Task}
    {rest : List Task} (w : ω) (h : c.ready = t :: rest) :
    ∃ burst, c.choose (.turn t burst) =
      ⟨({ c with ready := rest }.turn x w t).1, ({ c with ready := rest }.turn x w t).2.1⟩ := by
  have first : t ∈ c.ready := by rw [h]; exact List.mem_cons_self
  have others : c.ready.erase t = rest := by rw [h, List.erase_cons_head]
  cases t with
  | worker n => exact ⟨{}, by rw [choose, if_pos first, others]; rfl⟩
  | executor n =>
    cases hp : ({ c with ready := rest } : Coordinator).part? n with
    | none =>
      refine ⟨{}, ?_⟩
      rw [choose, if_pos first, others]
      simp only [turn, hp]
    | some part =>
      refine ⟨(x part n w).1, ?_⟩
      rw [choose, if_pos first, others]
      simp only [turn, hp]

/-- **A run of the program until it is idle is a course.** -/
theorem exists_after_runUntilIdle {ω : Type} (x : Executor ω) (c : Coordinator) (w : ω) :
    ∃ xs, (Moment.mk [] c).after xs = ⟨[], (c.runUntilIdle x w).1⟩ := by
  fun_induction runUntilIdle x c w with
  | case1 c w h => exact ⟨[], rfl⟩
  | case2 c w t rest h next ih =>
    obtain ⟨ys, hys⟩ := ih
    obtain ⟨burst, hburst⟩ := exists_choose_turn x w h
    -- the turn is one choice, what follows from it is settled, and then the rest of the run comes
    obtain ⟨zs, hzs⟩ := exists_after_settle ({ c with ready := rest }.turn x w t).1
      ({ c with ready := rest }.turn x w t).2.1
    refine ⟨ys ++ (zs ++ [.turn t burst]), ?_⟩
    rw [Moment.after_append, Moment.after_append, Moment.after_cons, Moment.after_nil, Moment.next]
    simp only [hburst]
    rw [hzs]
    exact hys

end Coordinator

/-- Requests that are carried out one after the other are a course. -/
theorem Coordinator.exists_after_requests (rs : List Request) (c : Coordinator) :
    ∃ xs, (Moment.mk [] c).after xs = ⟨[], rs.foldl Coordinator.request c⟩ := by
  induction rs generalizing c with
  | nil => exact ⟨[], rfl⟩
  | cons r rest ih =>
    obtain ⟨xs, hxs⟩ := c.exists_after_request r
    obtain ⟨ys, hys⟩ := ih (c.request r)
    refine ⟨ys ++ xs, ?_⟩
    rw [Moment.after_append, hxs]
    exact hys

/-- **What a rehearsal plays is a course.** -/
theorem Rehearsal.exists_after_play (r : Rehearsal) (requests : List Request) :
    ∃ xs, (Moment.mk [] r.run).after xs = ⟨[], (r.play requests).2.run⟩ := by
  obtain ⟨xs, hxs⟩ := r.run.exists_after_requests (requests.filter r.accepts)
  obtain ⟨ys, hys⟩ := Coordinator.exists_after_runUntilIdle r.executor
    ((requests.filter r.accepts).foldl Coordinator.request r.run) ()
  refine ⟨ys ++ xs, ?_⟩
  rw [Moment.after_append, hxs]
  exact hys

end StepFlow
