import StepFlow.Proofs.Course.Audience
import StepFlow.Proofs.Progress

/-! # What a listener hears of a step

A listener that attends a run hears of every step a story with a fixed shape: that it starts, the
lines that its executor puts out, and that it has ended. It hears the story from the beginning and
in order, however the steps are interleaved and whether or not the run is stopped, and when it hears
of the end the status of the step tells the same.

Some stories have no start: those of the leaves that were claimed with a group, and of those whose
worker was cut off by a stop before it had announced them.

Main statement: `Setup.heard_isPrefix_story`. -/

namespace StepFlow

/-- The **story** of a step: its start if there is one, the lines that its executor puts out, and
its end. -/
def story (n : Name) (started : Bool) (lines : List String) (code : Int) : List Event :=
  (if started then [.started n] else []) ++ lines.map (.output n) ++ [.completed n code]

section Fates

variable {f : Flow} {m : Moment} {h : History} {n : Name} (o : Orderly f m) (r : Recorded f m h)
  (p : Posted f m h) (t : Traced m h)

/-! ## The end of a story -/

include r in
/-- A step that has ended has one end, and its status tells the same. -/
theorem Recorded.endsOf_of_isTerminal (ended : (m.status n).isTerminal = true) :
    ∃ code, endsOf n h.ends.reverse = [.completed n code] ∧ m.status n = .ofExitCode code := by
  have once : (endsOf n h.ends.reverse).length = 1 := by
    have endings := r.endings n
    rw [if_pos ended, History.endings, List.countP_eq_length_filter] at endings
    rw [endsOf, List.length_map, List.filter_reverse, List.length_reverse, endings]
  obtain ⟨e, only⟩ := List.length_eq_one_iff.1 once
  obtain ⟨code, mem, rfl⟩ := mem_endsOf.1 (show e ∈ endsOf n h.ends.reverse by rw [only]; simp)
  exact ⟨code, only, r.status_of_end n code (List.mem_reverse.1 mem)⟩

include o in
/-- The worker of a leaf that has ended is done. -/
theorem Orderly.done_of_isTerminal (ended : (m.status n).isTerminal = true) {s : Stage}
    (hs : m.run.stages.get? n = some s) : s = .done := by
  by_contra busy
  rw [(o.of_stage hs busy).2] at ended
  cases ended

/-! ## The start of a story -/

include o in
/-- A group that has ended was announced. -/
theorem Orderly.announced_of_group (isGroup : f.isGroup n = true)
    (ended : (m.status n).isTerminal = true) : Announced f m h n := by
  rw [StepFlow.announced_of_group isGroup]
  refine ⟨fun waits => ?_, ?_⟩
  · rw [waits] at ended
    cases ended
  · -- what is claimed is in progress
    by_contra claimed
    have le := m.claims_le_covers n
    rw [o.covered n (by omega)] at ended
    cases ended

include o in
/-- The worker of a leaf that has ended does not start it any more, and is not cut off. -/
private theorem past_of_isTerminal (ended : (m.status n).isTerminal = true) :
    (History.Admitted (m :: h) n ↔ h.Admitted n) ∧ (History.CutOff (m :: h) n ↔ h.CutOff n) := by
  rw [History.admitted_cons, History.cutOff_cons]
  refine ⟨or_iff_right fun starting => ?_, or_iff_right fun ⟨_, s, hs, early⟩ => ?_⟩
  · cases o.done_of_isTerminal ended starting
  · rw [o.done_of_isTerminal ended hs] at early
    cases early

include o p in
/-- A leaf that has ended was announced if it got to run or was committed to be skipped. -/
theorem Posted.announced_iff_of_leaf (isLeaf : f.isLeaf n = true)
    (ended : (m.status n).isTerminal = true) :
    Announced f m h n ↔ h.Admitted n ∨ h.verdict n = some .skip := by
  have other : ¬ f.isGroup n = true := fun isGroup =>
    Flow.not_isLeaf_of_isGroup isGroup isLeaf
  rw [announced_of_other other, (past_of_isTerminal o ended).1]
  -- a leaf that was committed to be skipped has a worker, and that is done by now
  refine or_congr_right (and_iff_left_of_imp fun skip => ?_)
  obtain ⟨s, hs⟩ := Option.isSome_iff_exists.1 ((p.staged n).2 ⟨isLeaf, .inr skip⟩)
  rw [hs, o.done_of_isTerminal ended hs]

include o r p t in
/-- A leaf that has ended was not announced if it was claimed or cut off. -/
theorem Traced.not_announced_iff_of_leaf (isLeaf : f.isLeaf n = true)
    (ended : (m.status n).isTerminal = true) :
    ¬ Announced f m h n ↔ h.verdict n = some .claim ∨ h.CutOff n := by
  obtain ⟨admitted, cutOff⟩ := past_of_isTerminal (h := h) o ended
  rw [p.announced_iff_of_leaf o isLeaf ended, not_or]
  constructor
  · rintro ⟨out, own⟩
    cases hv : h.verdict n with
    | none =>
      rw [(r.verdict_eq_none n).1 hv] at ended
      cases ended
    | some v =>
      cases v with
      | skip => exact absurd hv own
      | claim => exact .inl rfl
      | run =>
        -- its worker is done and it did not get to run
        obtain ⟨s, hs⟩ := Option.isSome_iff_exists.1 ((p.staged n).2 ⟨isLeaf, .inl hv⟩)
        rw [o.done_of_isTerminal ended hs] at hs
        rcases t.done n hs with skip | ran | cut
        · exact absurd skip own
        · exact absurd (admitted.1 ran) out
        · exact .inr (cutOff.1 cut)
  · -- only leaves that were committed to run get to run or are cut off
    rintro (claim | cut)
    · refine ⟨fun ran => ?_, fun skip => by rw [claim] at skip; cases skip⟩
      rw [t.run n (.inl (admitted.2 ran))] at claim
      cases claim
    · have cut := cutOff.2 cut
      refine ⟨fun ran => (t.cutOff n cut).2.1 (admitted.2 ran), fun skip => ?_⟩
      rw [t.run n (.inr cut)] at skip
      cases skip

end Fates

/-! ## Stories in a run -/

namespace Setup

variable (s : Setup)

/-- What a listener that attends a run has heard of a step is the beginning of its tale. -/
private theorem heard_prefix {k : Nat} {xs : List Choice} (a : s.Attends k xs) (n : Name) :
    (s.heard k xs).filter (·.step = n) <+:
      (tidings (s.after xs) (s.past xs)).filter (·.step = n) :=
  (heard_isPrefix a).filter _

/-- **What a listener hears of a step.** A listener that attends a run has heard, of every step, the
beginning of a story that the lines of its executor appear in; and when it is about to hear that a
step has ended the status of the step is the one of that exit code. When the run is idle it has
heard the whole story of every step that has ended. That of a group has a start; that of a leaf has
one exactly if the leaf got to run or was committed to be skipped, and has none exactly if the leaf
lies under a group that was committed to be skipped or was cut off by a stop. -/
theorem heard_isPrefix_story (k : Nat) (xs : List Choice) (attends : s.Attends k xs) :
    (∀ n, ∃ started code,
      (s.heard k xs).filter (·.step = n) <+: story n started (s.emitted n xs) code) ∧
    (∀ n code rest, (s.after xs).agenda = .deliver k (.completed n code) :: rest →
      (s.after xs).status n = .ofExitCode code) ∧
    ((s.after xs).isIdle = true → ∀ n, ((s.after xs).status n).isTerminal = true →
      ∃ started code,
        (s.heard k xs).filter (·.step = n) = story n started (s.emitted n xs) code ∧
        (s.after xs).status n = .ofExitCode code ∧
        (s.flow.isGroup n = true → started = true) ∧
        (s.flow.isLeaf n = true →
          (started = true ↔
            History.Admitted (s.past xs) n ∨ History.Committed (s.past xs) n .skip) ∧
          (started = false ↔
            (∃ g, s.flow.Under n g ∧ History.Committed (s.past xs) g .skip) ∨
              History.CutOff (s.past xs) n))) := by
  have sound := s.sound xs
  have orderly := sound.orderly
  have recorded := sound.recorded
  have posted := sound.posted
  have traced := s.traced xs
  refine ⟨fun n => ?_, fun n code rest agenda => ?_, fun idle n ended => ?_⟩
  · have hears := s.heard_prefix attends n
    rw [(s.tale n xs).told] at hears
    refine ⟨decide (Announced s.flow (s.after xs) (s.past xs) n), ?_⟩
    simp only [story, decide_eq_true_eq]
    -- a step that has not ended may be heard to end with any exit code
    cases ended : ((s.after xs).status n).isTerminal with
    | true =>
      obtain ⟨code, ends, -⟩ := recorded.endsOf_of_isTerminal ended
      rw [ends] at hears
      exact ⟨code, hears⟩
    | false =>
      rw [recorded.endsOf_eq_nil ended, List.append_nil] at hears
      exact ⟨0, hears.trans (List.prefix_append ..)⟩
  · have told := told_of_deliver attends agenda
    exact (s.tale n xs).ended_of_mem recorded
      (List.mem_append_left _ (List.mem_reverse.2 told))
  · have empty := Sound.agenda_of_isIdle idle
    obtain ⟨due, told, nothing⟩ := told_eq_heard_append attends
    obtain ⟨code, ends, status⟩ := recorded.endsOf_of_isTerminal ended
    refine ⟨decide (Announced s.flow (s.after xs) (s.past xs) n), code, ?_, status,
      fun isGroup => ?_, fun isLeaf => ⟨?_, ?_⟩⟩
    · -- nothing is about to be told any more
      have tale := (s.tale n xs).told
      rw [tidings, told, nothing empty, empty, List.nil_append, List.reverse_reverse, toTell_nil,
        List.append_nil, ends] at tale
      simp only [tale, story, decide_eq_true_eq]
    · exact decide_eq_true (orderly.announced_of_group isGroup ended)
    · rw [decide_eq_true_eq, posted.announced_iff_of_leaf orderly isLeaf ended,
        recorded.verdict_eq_skip_iff]
    · rw [decide_eq_false_iff_not,
        traced.not_announced_iff_of_leaf orderly recorded posted isLeaf ended,
        recorded.claim_iff]
      simp only [recorded.verdict_eq_skip_iff]

/-- The small setup with a listener that only listens, and one that stops the run when a step
starts. -/
def attended : Setup :=
  { sample with
    registry :=
      ⟨[{ listener := .channel },
        { listener :=
            .of { respond := fun _ e => match e with | .started _ => [.stop] | _ => [] } }]⟩
    coordinator := _
    created := rfl }

/-- A run that is stopped when its first leaf starts. -/
def attendedRun : List Choice := List.replicate 32 (.turn (.worker "a") {}) ++ [.request .start]

/-- In a run that is stopped at its first start, a listener hears of the leaf in the group that has
not started by then only that it has ended. -/
theorem heard_isPrefix_story_attended :
    attended.Attends 0 attendedRun ∧ (attended.after attendedRun).isIdle = true ∧
      ∃ code, (attended.heard 0 attendedRun).filter (·.step = "b") =
        story "b" false (attended.emitted "b" attendedRun) code := by
  have attends : attended.Attends 0 attendedRun :=
    { joined := ⟨attendedRun, [], (List.append_nil _).symm, rfl, rfl⟩
      stays := by decide +kernel
      first := fun _ _ j before => absurd before (Nat.not_lt_zero j) }
  have idle : (attended.after attendedRun).isIdle = true := by decide +kernel
  refine ⟨attends, idle, ?_⟩
  obtain ⟨started, code, heard, -, -, leaf⟩ :=
    (attended.heard_isPrefix_story 0 attendedRun attends).2.2 idle "b" (by decide +kernel)
  have skipped : History.Committed (attended.past attendedRun) "g" .skip := by
    unfold History.Committed
    decide +kernel
  have silent := (leaf rfl).2.2 (.inl ⟨"g", .of_groupOf? rfl, skipped⟩)
  exact ⟨code, silent ▸ heard⟩

end Setup

end StepFlow
