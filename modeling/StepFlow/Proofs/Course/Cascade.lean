import StepFlow.Proofs.Course.Moment

/-! # Calls return

The calls at the front of an agenda are what the code that goes on now has to carry out before the
rest gets its turn, so they **return** when the rest of the agenda is all that is left. Until then
the world has no choice, and the number of moves it takes and the state in which they return are
fixed, whatever the rest is.

That they return does not depend on what the listeners are. A listener may look at the run and at
anything else before it reacts, and react in another way each time; the cascade ends all the same,
as long as it reacts to each event by finitely many requests.

Main statements: `Coordinator.exists_returnsIn`, that calls return, in the state that they are
settled to, and `Moment.wellFounded_mayLead`, that no way of reacting keeps a cascade going. -/

namespace StepFlow

/-- A moment **returns in** a number of moves to some calls and a state when that is where this many
moves lead, and before that something is left to do in front of these calls. -/
structure Moment.ReturnsIn (m : Moment) (moves : Nat) (rest : List Call) (c : Coordinator) :
    Prop where
  busy : ∀ xs : List Choice, xs.length < moves →
    ∃ call calls, (m.after xs).agenda = call :: calls ++ rest
  back : ∀ xs : List Choice, xs.length = moves → m.after xs = ⟨rest, c⟩

namespace Moment.ReturnsIn

variable {m : Moment} {moves : Nat} {rest : List Call} {c : Coordinator}

/-- Calls return at once when there are none. -/
theorem zero (rest : List Call) (c : Coordinator) : (Moment.mk rest c).ReturnsIn 0 rest c where
  busy xs fewer := absurd fewer (Nat.not_lt_zero _)
  back xs none := by rw [List.length_eq_zero_iff.1 none, after_nil]

/-- A call takes one move more than the calls that follow from it. -/
theorem succ {call : Call} {calls : List Call} (agenda : m.agenda = call :: calls ++ rest)
    (later : ∀ x, (m.next x).ReturnsIn moves rest c) : m.ReturnsIn (moves + 1) rest c where
  busy xs fewer := by
    -- the choice that comes last in the list is the first one of the course
    rcases List.eq_nil_or_concat xs with rfl | ⟨ys, x, rfl⟩
    · exact ⟨call, calls, agenda⟩
    · rw [List.concat_eq_append, List.length_append, List.length_singleton] at fewer
      rw [List.concat_eq_append, after_append]
      exact (later x).busy ys (by omega)
  back xs all := by
    rcases List.eq_nil_or_concat xs with rfl | ⟨ys, x, rfl⟩
    · cases all
    · rw [List.concat_eq_append, List.length_append, List.length_singleton] at all
      rw [List.concat_eq_append, after_append]
      exact (later x).back ys (by omega)

/-- What has something to do does not return at once. -/
theorem pos (returns : m.ReturnsIn moves rest c) (busy : m.agenda ≠ rest) : 0 < moves := by
  rcases Nat.eq_zero_or_pos moves with rfl | pos
  · have here := returns.back [] rfl
    rw [after_nil] at here
    exact absurd (by rw [here]) busy
  · exact pos

end Moment.ReturnsIn

/-- **Calls return.** The calls at the front of an agenda are carried out, with all that follows
from them, in a number of moves that does not depend on any choice, and they return in the state
that they are settled to. -/
theorem Coordinator.exists_returnsIn (calls rest : List Call) (c : Coordinator) :
    ∃ moves, (Moment.mk (calls ++ rest) c).ReturnsIn moves rest (settle calls c) := by
  fun_induction settle calls c with
  | case1 c => exact ⟨0, .zero rest c⟩
  | case2 call later c result ih =>
    obtain ⟨moves, returns⟩ := ih
    refine ⟨moves + 1, .succ rfl fun x => ?_⟩
    rw [List.append_assoc] at returns
    exact returns

/-! ## Any reactions -/

/-- A moment **may lead** to another one when its first call is carried out, or when that is a
delivery and the listener reacts in any way at all, leaving the registry in any state. -/
inductive Moment.MayLead : Moment → Moment → Prop where
  /-- The call is carried out. -/
  | perform (call : Call) (rest : List Call) (c : Coordinator) :
      MayLead ⟨call :: rest, c⟩ ⟨(c.perform call).1 ++ rest, (c.perform call).2⟩
  /-- The listener that is told an event reacts to it. -/
  | react (number : Nat) (e : Event) (reactions : List Reaction) (registry : Registry)
      (rest : List Call) (c : Coordinator) :
      MayLead ⟨.deliver number e :: rest, c⟩
        ⟨reactions.flatMap c.reactionCalls ++ rest, { c with registry := registry }⟩

/-- Until the calls have returned a run takes one of the ways that it may take. -/
theorem Moment.mayLead_next {m : Moment} (busy : m.agenda ≠ []) (x : Choice) :
    m.MayLead (m.next x) := by
  obtain ⟨agenda, c⟩ := m
  cases agenda with
  | nil => exact absurd rfl busy
  | cons call rest => exact .perform call rest c

/-- **No way of reacting keeps a cascade going for ever.** -/
theorem Moment.wellFounded_mayLead : WellFounded fun later m : Moment => m.MayLead later := by
  have down : ∀ {later m : Moment}, m.MayLead later →
      Prod.Lex (· < ·) (Prod.Lex (· < ·) (· < ·)) (Coordinator.measure later.agenda later.run)
        (Coordinator.measure m.agenda m.run) := by
    intro later m leads
    cases leads with
    | perform call rest c => exact (c.perform_descends call).measure_lt rest
    | react number e reactions registry rest c =>
      exact (c.descends_deliver number e reactions registry).measure_lt rest
  have wf := (Prod.lex Nat.lt_wfRel (Prod.lex Nat.lt_wfRel Nat.lt_wfRel)).wf
  exact Subrelation.wf down (InvImage.wf (fun m : Moment => Coordinator.measure m.agenda m.run) wf)

/-! ## Calls that do nothing -/

section Inert

variable {calls : List Call} {c : Coordinator} (inert : ∀ call ∈ calls, c.perform call = ([], c))

include inert

/-- Calls that do nothing are used up one by one. -/
theorem Moment.after_of_inert (rest : List Call) {xs : List Choice}
    (few : xs.length ≤ calls.length) :
    (Moment.mk (calls ++ rest) c).after xs = ⟨calls.drop xs.length ++ rest, c⟩ := by
  induction xs with
  | nil => rfl
  | cons x earlier ih =>
    have fewer : earlier.length < calls.length := few
    rw [after_cons, ih (Nat.le_of_lt fewer), List.drop_eq_getElem_cons fewer, List.cons_append,
      next]
    simp only [inert _ (List.getElem_mem fewer)]
    rfl

/-- Calls that do nothing settle to nothing. -/
theorem Coordinator.settle_of_inert : settle calls c = c := by
  induction calls with
  | nil => exact settle_nil c
  | cons call later ih =>
    rw [settle_cons, inert call List.mem_cons_self]
    exact ih fun k hk => inert k (List.mem_cons_of_mem _ hk)

end Inert

end StepFlow
