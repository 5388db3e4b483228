import StepFlow.Proofs.Course.Order
import StepFlow.Proofs.Events

/-! # The order of events

The events of a group bracket those of the steps under it: a listener hears that the group starts
before it hears anything of them, and that they have ended before it hears that the group has. What
waits for a step is silent with everything under it until the listener has heard that the step has
ended. Both hold however deeply cascades are nested, and also when the run is stopped.

A dependency of what lies under a skipped group orders nothing: what was claimed with the group ends
without waiting for anything.

Main statement: `Setup.order_of_events`. -/

namespace StepFlow

namespace Setup

/-- **In which order a listener hears of steps.** A listener that attends a run hears of every group
that it starts before anything of the steps under it, and that it has ended after it has heard so of
all of them. If a step depends on another one and lies under no group that was committed to be
skipped, the listener hears that the other one has ended before it hears anything of the step or of
what lies under it. -/
theorem order_of_events (s : Setup) (k : Nat) (xs : List Choice) (attends : s.Attends k xs) :
    (∀ n g, s.flow.Under n g →
      Trails (·.step = n) (· = .started g) (s.heard k xs) ∧
        Trails (Event.IsEnd g) (Event.IsEnd n) (s.heard k xs)) ∧
      ∀ d ∈ s.flow.dependencies,
        (∀ g, s.flow.Under d.src g → ¬ History.Committed (s.past xs) g .skip) →
          Trails (fun e => e.step = d.src ∨ s.flow.Under e.step d.src) (Event.IsEnd d.dst)
            (s.heard k xs) := by
  have ordered := s.ordered xs
  have recorded := (s.sound xs).recorded
  have begins := heard_isPrefix attends
  refine ⟨fun n g under => ⟨?_, ?_⟩, fun d hd free => ?_⟩
  · exact (ordered.starts n g under).of_isPrefix begins
  · exact (ordered.ends n g under).of_isPrefix begins
  · refine (ordered.waits d hd fun claim => ?_).of_isPrefix begins
    -- what was claimed lies under a group that was committed to be skipped
    obtain ⟨g, under, skip⟩ := (recorded.claim_iff d.src).1 claim
    exact free g under (recorded.verdict_eq_skip_iff.1 skip)

/-- In a run that is stopped at its first start, a listener hears of the group that waits for the
first leaf after the end of that leaf, and of the leaf in the group after the start of the group. -/
theorem order_of_events_attended :
    attended.Attends 0 attendedRun ∧
      Event.completed "b" 1 ∈ attended.heard 0 attendedRun ∧
      Trails (·.step = "b") (· = .started "g") (attended.heard 0 attendedRun) ∧
      Trails (fun e => e.step = "g" ∨ attended.flow.Under e.step "g") (Event.IsEnd "a")
        (attended.heard 0 attendedRun) := by
  have attends : attended.Attends 0 attendedRun :=
    { joined := ⟨attendedRun, [], (List.append_nil _).symm, rfl, rfl⟩
      stays := by decide +kernel
      first := fun _ _ j before => absurd before (Nat.not_lt_zero j) }
  obtain ⟨brackets, waits⟩ := attended.order_of_events 0 attendedRun attends
  refine ⟨attends, by decide +kernel, (brackets "b" "g" (.of_groupOf? rfl)).1, ?_⟩
  refine waits ⟨"g", "a", false⟩ (List.mem_singleton.2 rfl) fun g under => ?_
  -- the group lies under no other one
  obtain ⟨k, none, -⟩ := Flow.under_iff.1 under
  cases none

end Setup

end StepFlow
