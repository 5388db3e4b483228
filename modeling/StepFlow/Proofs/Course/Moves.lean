import StepFlow.Proofs.Tables
import StepFlow.Proofs.Course.Turns

/-! # Claims, marks, and the moves of tasks

What claiming a list of steps leaves of the table of statuses, what marking groups leaves of their
progress, and what the moves of tasks, permits and executions leave alone: they neither touch the
steps and groups (`Coordinator.Agrees`) nor relieve a worker of a leaf that it owes an end
(`Coordinator.works`). -/

namespace StepFlow

/-! ## Tables of statuses -/

theorem Status.ofExitCode_ne_waiting (code : Int) : ofExitCode code ≠ .waiting := by
  unfold ofExitCode
  split <;> decide

theorem Status.ofExitCode_ne_inProgress (code : Int) : ofExitCode code ≠ .inProgress := by
  unfold ofExitCode
  split <;> decide

namespace StatusTable

variable {t u : StatusTable} {n m : Name}

/-- A claim takes place exactly for a known step that waits. -/
theorem claim?_eq_some (known : t.knows n = true) (h : t.status n = .waiting) :
    t.claim? n = some (t.set n .inProgress) := by
  rw [claim?, if_pos (get?_eq_waiting_iff.2 ⟨known, h⟩)]

theorem waiting_of_claim? (h : t.claim? n = some u) :
    t.knows n = true ∧ t.status n = .waiting ∧ u = t.set n .inProgress := by
  unfold claim? at h
  split at h
  · rename_i found
    obtain ⟨known, waiting⟩ := get?_eq_waiting_iff.1 found
    exact ⟨known, waiting, (Option.some.inj h).symm⟩
  · cases h

theorem status_set_of_knows (known : t.knows n = true) (s : Status) :
    (t.set n s).status m = if n = m then s else t.status m := by
  rw [status_set, known]
  simp

end StatusTable

namespace Coordinator

open StatusTable

/-! ## Claiming a list of steps -/

/-- What claiming leaves of the table and which steps it names. -/
theorem claimAll_spec (steps : List Step) (t : StatusTable) :
    (claimAll steps t).1.Sublist steps ∧
      ((claimAll steps t).1.map (·.name)).Nodup ∧
      (∀ n, n ∈ (claimAll steps t).1.map (·.name) ↔
        n ∈ steps.map (·.name) ∧ t.knows n = true ∧ t.status n = .waiting) ∧
      (∀ n, (claimAll steps t).2.knows n = t.knows n) ∧
      ∀ n, (claimAll steps t).2.status n =
        if n ∈ (claimAll steps t).1.map (·.name) then .inProgress else t.status n := by
  induction steps generalizing t with
  | nil => simp [claimAll]
  | cons s rest ih =>
    rw [claimAll]
    cases hs : t.claim? s.name with
    | none =>
      obtain ⟨sub, nodup, mem, known, status⟩ := ih t
      refine ⟨sub.cons s, nodup, ?_, known, status⟩
      intro n
      rw [mem n, List.map_cons, List.mem_cons]
      constructor
      · rintro ⟨inRest, waits⟩
        exact ⟨.inr inRest, waits⟩
      · rintro ⟨rfl | inRest, isKnown, waits⟩
        · rw [claim?_eq_some isKnown waits] at hs
          cases hs
        · exact ⟨inRest, isKnown, waits⟩
    | some u =>
      obtain ⟨isKnown, waits, rfl⟩ := waiting_of_claim? hs
      obtain ⟨sub, nodup, mem, known, status⟩ := ih (t.set s.name .inProgress)
      -- the step itself no longer waits, so the rest does not claim it again
      have fresh : s.name ∉ (claimAll rest (t.set s.name .inProgress)).1.map (·.name) := by
        intro again
        have := ((mem s.name).1 again).2.2
        rw [status_set_of_knows isKnown, if_pos rfl] at this
        cases this
      refine ⟨sub.cons_cons s, ?_, ?_, ?_, ?_⟩
      · simp only [List.map_cons, List.nodup_cons]
        exact ⟨fresh, nodup⟩
      · intro n
        simp only [List.map_cons, List.mem_cons]
        by_cases hn : n = s.name
        · subst hn
          simp [isKnown, waits]
        · rw [mem n, knows_set, status_set_of_knows isKnown, if_neg (Ne.symm hn)]
          simp [hn]
      · intro n
        rw [known n, knows_set]
      · intro n
        simp only [List.map_cons, List.mem_cons]
        rw [status n, status_set_of_knows isKnown]
        by_cases hn : n = s.name
        · subst hn
          simp
        · simp [hn, Ne.symm hn]

/-! ## Marking groups -/

theorem get?_markFailed (t : Table Progress) (g h : Name) :
    (markFailed t g).get? h =
      if h = g then (t.get? h).map fun p => { p with failed := true } else t.get? h := by
  unfold markFailed
  by_cases same : h = g
  · subst same
    cases hp : t.get? h <;> simp [hp]
  · cases hp : t.get? g <;> simp [same, Ne.symm same]

theorem get?_foldl_markFailed (gs : List Name) (t : Table Progress) (h : Name) :
    (gs.foldl markFailed t).get? h =
      if h ∈ gs then (t.get? h).map fun p => { p with failed := true } else t.get? h := by
  induction gs generalizing t with
  | nil => simp
  | cons g rest ih =>
    rw [List.foldl_cons, ih, get?_markFailed]
    by_cases same : h = g
    · subst same
      cases t.get? h <;> simp
    · simp [same]

end Coordinator

/-! ## Workers that owe an end -/

/-- Whether a worker in a stage has still to end its leaf, as a number. -/
def Stage.owes : Stage → Nat
  | .dispatched _ | .queued | .granted | .starting | .running => 1
  | .done => 0

namespace Coordinator

/-- Whether a step has a worker that has still to end it, as a number. -/
def works (c : Coordinator) (n : Name) : Nat := c.stages.weightAt Stage.owes n

/-- The exit code with which a group would close now, if it is in progress and nothing of it is
pending. -/
def closing? (c : Coordinator) (g : Name) : Option Int :=
  (c.progress.get? g).bind fun p =>
    if c.status g = .inProgress ∧ p.pending = 0 then some (if p.failed then skippedCode else 0)
    else none

/-! ## Moves of tasks and permits keep the steps -/

/-- Two states **agree on the steps** if they have the same flow, statuses, progress and count. -/
structure Agrees (c d : Coordinator) : Prop where
  flow : d.flow = c.flow
  statuses : d.statuses = c.statuses
  progress : d.progress = c.progress
  remaining : d.remaining = c.remaining

theorem Agrees.refl (c : Coordinator) : Agrees c c := ⟨rfl, rfl, rfl, rfl⟩

theorem Agrees.trans {b c d : Coordinator} (h : Agrees b c) (k : Agrees c d) : Agrees b d :=
  ⟨k.flow.trans h.flow, k.statuses.trans h.statuses, k.progress.trans h.progress,
    k.remaining.trans h.remaining⟩

theorem agrees_wake (c : Coordinator) (t : Task) : Agrees c (c.wake t) := by
  unfold wake
  split <;> exact ⟨rfl, rfl, rfl, rfl⟩

theorem agrees_setStage (c : Coordinator) (n : Name) (s : Stage) : Agrees c (c.setStage n s) :=
  ⟨rfl, rfl, rfl, rfl⟩

theorem agrees_setExecution (c : Coordinator) (n : Name) (e : Execution) :
    Agrees c (c.setExecution n e) := ⟨rfl, rfl, rfl, rfl⟩

theorem agrees_grant (c : Coordinator) (n : Name) : Agrees c (c.grant n) := by
  unfold grant
  split
  · exact Agrees.trans (c := { c with stages := c.stages.set n .granted }) ⟨rfl, rfl, rfl, rfl⟩
      (agrees_wake _ _)
  · exact ⟨rfl, rfl, rfl, rfl⟩

theorem agrees_giveBack (c : Coordinator) : Agrees c c.giveBack := by
  unfold giveBack
  split
  · exact ⟨rfl, rfl, rfl, rfl⟩
  · rename_i rest _
    exact Agrees.trans (c := { c with waiters := rest }) ⟨rfl, rfl, rfl, rfl⟩ (agrees_grant _ _)

theorem agrees_cancel (c : Coordinator) (n : Name) : Agrees c (c.cancel n) := by
  unfold cancel
  split
  · exact (agrees_setExecution c n _).trans (agrees_wake _ _)
  · exact (agrees_setExecution c n _).trans (agrees_wake _ _)
  · exact (agrees_setExecution c n _).trans (agrees_wake _ _)
  · exact .refl c

theorem agrees_release (c : Coordinator) (n : Name) : Agrees c (c.release n) := by
  unfold release
  split
  · exact (agrees_setExecution c n _).trans (agrees_wake _ _)
  · split <;> exact ⟨rfl, rfl, rfl, rfl⟩

theorem agrees_pause (c : Coordinator) (n : Name) (o : Option Outcome) :
    Agrees c (c.pause n o) := by
  unfold pause
  split
  · split
    · exact (agrees_setExecution c n _).trans (agrees_wake _ _)
    · split <;> exact ⟨rfl, rfl, rfl, rfl⟩
  · exact .refl c

theorem agrees_enter (c : Coordinator) (n : Name) (part : Part) : Agrees c (c.enter n part) := by
  cases part <;> exact ⟨rfl, rfl, rfl, rfl⟩

theorem agrees_executorTurn (c : Coordinator) (n : Name) : Agrees c (c.executorTurn n) := by
  unfold executorTurn
  split <;> exact ⟨rfl, rfl, rfl, rfl⟩

/-! ## Moves of tasks and permits and the workers -/

section Works

variable (c : Coordinator) (n k : Name)

@[simp] theorem works_wake (t : Task) : (c.wake t).works k = c.works k := by
  unfold wake works
  split <;> rfl

@[simp] theorem works_setStage (s : Stage) :
    (c.setStage n s).works k = if n = k then s.owes else c.works k :=
  Table.weightAt_set Stage.owes c.stages n k s

@[simp] theorem works_setExecution (e : Execution) : (c.setExecution n e).works k = c.works k := rfl

@[simp] theorem works_grant : (c.grant n).works k = c.works k := by
  unfold grant
  split
  · rename_i queued
    rw [works_wake]
    have := works_setStage c n k .granted
    rw [setStage] at this
    rw [this]
    by_cases h : n = k
    · subst h
      rw [if_pos rfl, works, Table.weightAt_of_get? queued]
      rfl
    · rw [if_neg h]
  · rfl

@[simp] theorem works_giveBack : c.giveBack.works k = c.works k := by
  unfold giveBack
  split
  · rfl
  · rw [works_grant]
    rfl

@[simp] theorem works_cancel : (c.cancel n).works k = c.works k := by
  unfold cancel
  split <;> simp

@[simp] theorem works_release : (c.release n).works k = c.works k := by
  unfold release
  split
  · simp
  · split <;> rfl

@[simp] theorem works_pause (o : Option Outcome) : (c.pause n o).works k = c.works k := by
  unfold pause
  split
  · split
    · simp
    · split <;> rfl
  · rfl

@[simp] theorem works_enter (part : Part) : (c.enter n part).works k = c.works k := by
  cases part <;> rfl

@[simp] theorem works_executorTurn : (c.executorTurn n).works k = c.works k := by
  unfold executorTurn
  split <;> rfl

end Works

/-! ## Moves and the rest of the state -/

section Views

variable (c : Coordinator) (n : Name)

@[simp] theorem stopped_wake (t : Task) : (c.wake t).stopped = c.stopped := by
  unfold wake
  split <;> rfl

@[simp] theorem stages_wake (t : Task) : (c.wake t).stages = c.stages := by
  unfold wake
  split <;> rfl

@[simp] theorem executions_wake (t : Task) : (c.wake t).executions = c.executions := by
  unfold wake
  split <;> rfl

@[simp] theorem invoked_wake (t : Task) : (c.wake t).invoked = c.invoked := by
  unfold wake
  split <;> rfl

variable {c} in
theorem mem_ready_wake {t t' : Task} : t' ∈ (c.wake t).ready ↔ t' ∈ c.ready ∨ t' = t := by
  unfold wake
  split
  · rename_i h
    constructor
    · exact .inl
    · rintro (h' | rfl)
      · exact h'
      · exact h
  · simp

@[simp] theorem stopped_setStage (s : Stage) : (c.setStage n s).stopped = c.stopped := rfl

@[simp] theorem invoked_setStage (s : Stage) : (c.setStage n s).invoked = c.invoked := rfl

@[simp] theorem stopped_setExecution (e : Execution) : (c.setExecution n e).stopped = c.stopped :=
  rfl

@[simp] theorem invoked_setExecution (e : Execution) :
    (c.setExecution n e).invoked = c.invoked := rfl

@[simp] theorem stopped_dispatch (skip : Bool) : (c.dispatch n skip).stopped = c.stopped := by
  simp [dispatch]

@[simp] theorem invoked_dispatch (skip : Bool) : (c.dispatch n skip).invoked = c.invoked := by
  simp [dispatch]

@[simp] theorem stopped_giveBack : c.giveBack.stopped = c.stopped := by
  unfold giveBack
  split
  · rfl
  · unfold grant
    split
    · simp
    · rfl

@[simp] theorem invoked_giveBack : c.giveBack.invoked = c.invoked := by
  unfold giveBack
  split
  · rfl
  · unfold grant
    split
    · simp
    · rfl

@[simp] theorem stopped_cancel : (c.cancel n).stopped = c.stopped := by
  unfold cancel
  split <;> simp

@[simp] theorem stages_cancel : (c.cancel n).stages = c.stages := by
  unfold cancel
  split <;> simp [setExecution]

@[simp] theorem invoked_cancel : (c.cancel n).invoked = c.invoked := by
  unfold cancel
  split <;> simp

end Views

end Coordinator

end StepFlow
