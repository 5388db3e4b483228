import StepFlow.Proofs.Course.Cascade
import StepFlow.Proofs.Course.Setup

/-! # Every call returns

Steps are evaluated, committed, skipped and ended by calls that make each other, and listeners that
are told of it may start the run, stop it or add listeners each time, themselves included, so that
there are ever more of them. Still every call returns after finitely many moves, wherever the run
stands and whoever listens: what is made of a step is a commit and an end, once each, and nothing
else makes an event.

Main statement: `Setup.calls_return`. -/

namespace StepFlow

namespace History

/-- The steps that were committed, the latest first. -/
def commitments (h : History) : List Name := h.filterMap fun m => m.commit?.map (·.1)

theorem mem_commitments {h : History} {n : Name} :
    n ∈ h.commitments ↔ ∃ m ∈ h, ∃ d, m.commit? = some (n, d) := by
  simp [commitments]

theorem count_commitments (h : History) (n : Name) : h.commitments.count n = h.commits n := by
  rw [commitments, List.count_filterMap, commits]
  refine List.countP_congr fun m _ => ?_
  rw [beq_iff_eq, decide_eq_true_iff]

theorem length_commitments (h : History) : h.commitments.length = h.countP (·.commit?.isSome) := by
  rw [commitments, List.length_filterMap_eq_countP]
  refine List.countP_congr fun m _ => ?_
  rw [Option.isSome_map]

theorem count_ends (h : History) (n : Name) : (h.ends.map (·.1)).count n = h.endings n := by
  rw [List.count_eq_countP, List.countP_map, endings]
  refine List.countP_congr fun e _ => ?_
  rw [Function.comp_apply, beq_iff_eq, decide_eq_true_iff]

end History

namespace Setup

variable (s : Setup) (xs : List Choice)

/-! ## Commits and ends -/

/-- No more steps are committed than there are. -/
theorem length_commitments_le :
    (History.commitments (s.past xs)).length ≤ s.flow.names.length := by
  refine (List.subperm_of_subset (List.nodup_iff_count_le_one.2 fun n => ?_) ?_).length_le
  · rw [History.count_commitments]
    exact (History.commits_le_departures _ n).trans ((s.sound xs).recorded.departures_le n)
  · intro n mem
    obtain ⟨m, hm, d, commit⟩ := History.mem_commitments.1 mem
    obtain ⟨x, later, earlier, -, rfl⟩ := Moment.mem_past_iff.1 hm
    obtain ⟨-, -, t, found, -⟩ := (s.sound earlier).orderly.of_commit? commit
    exact Flow.contains_iff_mem_names.1 (Flow.contains_of_step? found)

/-- No more ends are propagated than there are steps. -/
theorem length_ends_le : (History.ends (s.past xs)).length ≤ s.flow.names.length := by
  have sound := s.sound xs
  rw [← List.length_map (·.1)]
  refine (List.subperm_of_subset (List.nodup_iff_count_le_one.2 fun n => ?_) ?_).length_le
  · rw [History.count_ends, sound.recorded.endings]
    split <;> decide
  · intro n mem
    obtain ⟨⟨_, code⟩, ended, rfl⟩ := List.mem_map.1 mem
    refine Flow.contains_iff_mem_names.1 (sound.orderly.contains_of_status ?_)
    rw [sound.recorded.status_of_end _ _ ended]
    exact Status.ofExitCode_ne_waiting code

/-! ## Calls in a run -/

/-- **Every call returns.** At every moment of every run, whoever listens, the calls at the front of
the agenda return after a number of moves that no choice has an influence on, in the state that they
are settled to, and so does a request from outside. Nor would they go on for ever if from now on the
listeners reacted in other ways each time. Over the whole run no more steps are committed, and no
more ends propagated, than there are steps. -/
theorem calls_return :
    (∀ calls rest, (s.after xs).agenda = calls ++ rest →
      ∃ moves, (s.after xs).ReturnsIn moves rest (Coordinator.settle calls (s.after xs).run)) ∧
    (∀ request, (s.after xs).agenda = [] →
      ∃ moves, ((s.after xs).next (.request request)).ReturnsIn moves []
        ((s.after xs).run.request request)) ∧
    Acc (fun later m => m.MayLead later) (s.after xs) ∧
    (s.past xs).countP (·.commit?.isSome) ≤ s.flow.steps.length ∧
    (History.ends (s.past xs)).length ≤ s.flow.steps.length := by
  have all : s.flow.names.length = s.flow.steps.length := List.length_map _
  refine ⟨fun calls rest agenda => ?_, fun request agenda => ?_, ?_, ?_, ?_⟩
  · have returns := Coordinator.exists_returnsIn calls rest (s.after xs).run
    rw [← agenda] at returns
    exact returns
  · rw [Moment.next, agenda]
    cases request with
    | start =>
      have returns := Coordinator.exists_returnsIn (s.after xs).run.startCalls [] (s.after xs).run
      rw [List.append_nil] at returns
      exact returns
    | stop => exact Coordinator.exists_returnsIn [.stop] [] (s.after xs).run
    | release n => exact ⟨0, .zero [] _⟩
  · exact Moment.wellFounded_mayLead.apply (s.after xs)
  · rw [← History.length_commitments, ← all]
    exact s.length_commitments_le xs
  · rw [← all]
    exact s.length_ends_le xs

/-- A listener that adds itself at every event. -/
def swelling : Listener := .ofState (fun _ : Unit => { respond := fun _ _ => [.add ()] }) ()

/-- There is no end to the listeners that come from it: what it adds is the same again. -/
theorem respond_swelling (past : List Event) (e : Event) :
    swelling.respond past e = [.add swelling] := by
  rw [Listener.respond, swelling, Listener.behaviour_ofState]
  rfl

/-- The small setup with listeners that start the run, add themselves and stop the run at every
event that they hear of. -/
def restless : Setup :=
  { sample with
    registry :=
      ⟨[{ listener := .reacting (fun _ => true) .start }, { listener := swelling },
        { listener := .reacting (fun _ => true) .stop }]⟩
    coordinator := _
    created := rfl }

/-- The course of a run up to the announcement of its first leaf. -/
def announcing : List Choice := [.turn (.worker "a") {}, .request .start, .request .start]

/-- Among listeners that never rest, a start of the run returns, and so does the turn of the worker
that announces the first leaf. By then one listener has added itself, and the two of them add
themselves at the next event and the four at the one after it. -/
theorem calls_return_restless :
    (restless.after []).agenda = [] ∧
      (∃ moves, ((restless.after []).next (.request .start)).ReturnsIn moves []
        ((restless.after []).run.request .start)) ∧
      (restless.after announcing).agenda = [.notify (.started "a")] ++ [.launch "a"] ∧
      (∃ moves, (restless.after announcing).ReturnsIn moves [.launch "a"]
        (Coordinator.settle [.notify (.started "a")] (restless.after announcing).run)) ∧
      [0, 8, 19, 33].map (fun moves => (restless.after
        (List.replicate moves (.request .start) ++ announcing)).run.registry.nextNumber) =
          [3, 4, 6, 10] := by
  have announced : (restless.after announcing).agenda =
      [.notify (.started "a")] ++ [.launch "a"] := by rfl
  exact ⟨rfl, (restless.calls_return []).2.1 .start rfl, announced,
    (restless.calls_return _).1 _ _ announced, by decide +kernel⟩

end Setup

end StepFlow
