import StepFlow.Proofs.Course.Judgement
import StepFlow.Proofs.Course.Post

/-! # What workers hand over

With which exit code a step may end, and when executors begin. The end of a leaf is handed over by
its worker: with the exit code of its executor if it ran, and with `skippedCode` if it was to be
skipped or the run was stopped. An executor begins once.

Main statements: `Handed` is the invariant, and `Handed.next` says that every move keeps it. -/

namespace StepFlow

open Call Coordinator

/-- Whether an execution may have begun. -/
def Execution.hasBegun : Execution → Bool
  | .spawned | .cancelled false => false
  | .begun | .resumed | .ended _ | .cancelled true | .dropped => true

/-- An exit code that a step has **earned**: `skippedCode` if the step was skipped; the code of its
executor, or `skippedCode` after a stop, if it is a leaf that runs. -/
def Earned (f : Flow) (m : Moment) (h : History) (n : Name) (code : Int) : Prop :=
  (h.Skipped n → code = skippedCode) ∧
    (f.isLeaf n = true → h.verdict n = some .run →
      (∃ o, m.run.executions.get? n = some (.ended o) ∧ code = o.code) ∨
        (m.run.stopped = true ∧ code = skippedCode))

/-- A moment is **handed** when what is handed over to the agenda is due, and no executor has begun
twice. -/
structure Handed (f : Flow) (m : Moment) (h : History) : Prop where
  /-- A worker that announces the start of its leaf is about to launch the executor. -/
  launching : ∀ n, m.run.stages.get? n = some .starting → .launch n ∈ m.agenda
  /-- The ends that are on the agenda are earned. -/
  completes : ∀ n code, .complete n code ∈ m.agenda → Earned f m h n code
  /-- The ends that were propagated are earned. -/
  ends : ∀ n code, (n, code) ∈ h.ends → Earned f m h n code
  /-- No executor has begun twice. -/
  nodup_invoked : m.run.invoked.Nodup
  /-- The execution of an executor that has begun has begun. -/
  invoked : ∀ n ∈ m.run.invoked, ∃ e, m.run.executions.get? n = some e ∧ e.hasBegun = true

/-! ## Where ends come from -/

/-- A worker in a stage can **end** its leaf with an exit code. -/
def Coordinator.CanEnd (c : Coordinator) (n : Name) (code : Int) : Prop :=
  (c.stages.get? n = some (.dispatched true) ∧ code = skippedCode) ∨
    (c.stopped = true ∧ code = skippedCode ∧
      ∃ s, c.stages.get? n = some s ∧ s.verdict? = some .run) ∨
    ∃ o, c.stages.get? n = some .running ∧ c.executions.get? n = some (.ended o) ∧ code = o.code

section Ends

variable {c d : Coordinator} {n k : Name} {code : Int}

/-- The turn of a worker ends its leaf if it can. -/
theorem Coordinator.WorkerTurn.canEnd {calls : List Call} (turn : WorkerTurn c k calls d)
    (h : .complete n code ∈ calls) : c.CanEnd n code := by
  have atStop : ∀ {s}, c.stages.get? k = some s → s.verdict? = some .run → c.stopped = true →
      .complete n code ∈ [Call.complete k skippedCode] → c.CanEnd n code := by
    intro s here run stopped h
    cases List.mem_singleton.1 h
    exact .inr (.inl ⟨stopped, rfl, s, here, run⟩)
  cases turn with
  | rest | queue => cases h
  | skip here =>
    rcases List.mem_cons.1 h with h | h
    · cases h
    · cases List.mem_singleton.1 h
      exact .inl ⟨here, rfl⟩
  | leave here stopped | unqueue here stopped | decline here stopped | cut here stopped =>
    exact atStop here rfl stopped h
  | take | start => simp at h
  | @finish o here running ended =>
    cases List.mem_singleton.1 h
    exact .inr (.inr ⟨o, here, ended, rfl⟩)

end Ends

/-- An end that is on the agenda was there before, belongs to a step that was covered, or comes from
a worker that can end its leaf. -/
theorem Shift.complete_before {m m' : Moment} (s : Shift m m') {n : Name} {code : Int}
    (h : .complete n code ∈ m'.agenda) : .complete n code ∈ m.agenda ∨
      (0 < m.weight (covers n) ∧ code = skippedCode) ∨ m.run.CanEnd n code := by
  cases s with
  | keep agenda agenda' completes =>
    rw [agenda', List.mem_append] at h
    rcases h with new | old
    · obtain ⟨call, hc, covered, hcode⟩ := completes n code new
      refine .inr (.inl ⟨?_, hcode⟩)
      exact total_pos_of_mem (by rw [agenda]; exact List.mem_append_left _ hc) covered
    · exact .inl (by rw [agenda]; exact List.mem_append_right _ old)
  | dispatch agenda agenda' | launch agenda agenda' | ended agenda agenda' =>
    rw [agenda'] at h
    exact .inl (by rw [agenda]; exact List.mem_cons_of_mem _ h)
  | worker _ _ _ turn => exact .inr (.inr (turn.canEnd h))
  | executor _ agenda' =>
    rw [agenda'] at h
    split at h
    · simp [burstCalls] at h
    · cases h
  | abandon agenda agenda' here stopped =>
    rw [agenda'] at h
    rcases List.mem_cons.1 h with new | old
    · cases new
      exact .inr (.inr (.inr (.inl ⟨stopped, rfl, _, here, rfl⟩)))
    · exact .inl (by rw [agenda]; exact List.mem_cons_of_mem _ old)
  | resume agenda => exact .inl (by rw [agenda]; exact List.mem_append_right _ h)
  | stop agenda agenda' =>
    rw [agenda'] at h
    rcases List.mem_append.1 h with new | old
    · exact absurd new complete_notMem_startCalls
    · exact .inl (by rw [agenda]; exact List.mem_cons_of_mem _ old)

/-! ## When executors begin -/

theorem Coordinator.WorkerTurn.invoked {c d : Coordinator} {n : Name} {calls : List Call}
    (turn : WorkerTurn c n calls d) : d.invoked = c.invoked := by
  cases turn with
  | rest | skip | leave | take | queue | unqueue | start => rfl
  | decline | finish => rw [invoked_giveBack, invoked_setStage]
  | cut => rw [invoked_giveBack, invoked_cancel, invoked_setStage]

/-- A move begins at most one executor, one that was spawned, and that in a turn. -/
theorem Shift.invoked {m m' : Moment} (s : Shift m m') : m'.run.invoked = m.run.invoked ∨
    (m.agenda = [] ∧ ∃ n, m'.run.invoked = n :: m.run.invoked ∧
      m.run.executions.get? n = some .spawned ∧ m'.run.executions.get? n = some .begun) := by
  cases s with
  | keep _ _ _ _ _ same => exact .inl same.invoked
  | dispatch _ _ _ _ run' => exact .inl (by rw [run', invoked_dispatch])
  | worker _ _ _ turn => exact .inl turn.invoked
  | @executor n _ _ agenda _ _ _ turn =>
    generalize m'.run = d at turn
    cases turn with
    | rest | goOn | drop => exact .inl rfl
    | begin here => exact .inr ⟨agenda, n, rfl, here, by simp [begin, setExecution]⟩
  | launch _ _ _ _ _ run' =>
    exact .inl (by rw [run', invoked_wake, invoked_setExecution, invoked_setStage])
  | abandon _ _ _ _ _ run' => exact .inl (by rw [run', invoked_giveBack, invoked_setStage])
  | ended _ _ _ _ run' => exact .inl (by rw [run', invoked_wake, invoked_setExecution])
  | resume _ _ _ _ _ same => exact .inl same.invoked
  | stop _ _ _ _ run' => exact .inl (by rw [run'])

/-! ## Launches -/

section Launches

variable {c d : Coordinator} {n k : Name}

private theorem starting_setStage {s : Stage}
    (h : (c.setStage n s).stages.get? k = some .starting) :
    (n = k ∧ s = .starting) ∨ c.stages.get? k = some .starting := by
  simp only [setStage, Table.get?_set] at h
  split at h
  · rename_i same
    exact .inl ⟨same, Option.some.inj h⟩
  · exact .inr h

private theorem starting_before {s : Stage} (other : s ≠ .starting)
    (h : (c.setStage n s).stages.get? k = some .starting) :
    c.stages.get? k = some .starting :=
  (starting_setStage h).resolve_left fun now => other now.2

private theorem starting_giveBack (h : c.giveBack.stages.get? k = some .starting) :
    c.stages.get? k = some .starting := by
  unfold giveBack at h
  split at h
  · exact h
  · unfold grant at h
    split at h
    · rw [stages_wake] at h
      exact starting_before (s := .granted) (by decide) h
    · exact h

/-- A worker announces the start of its leaf in its turn, and the launch is put on the agenda. -/
theorem Coordinator.WorkerTurn.starting {calls : List Call} (turn : WorkerTurn c n calls d)
    (h : d.stages.get? k = some .starting) :
    c.stages.get? k = some .starting ∨ .launch k ∈ calls := by
  cases turn with
  | rest => exact .inl h
  | skip | leave | queue | unqueue => exact .inl (starting_before (by decide) h)
  | take | start =>
    rcases starting_setStage h with ⟨rfl, -⟩ | before
    · exact .inr (by simp)
    · exact .inl before
  | decline | finish => exact .inl (starting_before (by decide) (starting_giveBack h))
  | cut =>
    have h := starting_giveBack h
    rw [stages_cancel] at h
    exact .inl (starting_before (by decide) h)

/-- A worker that announces the start of its leaf is about to launch the executor, if that was so
before. -/
theorem Shift.launching {m m' : Moment} (s : Shift m m')
    (before : ∀ n, m.run.stages.get? n = some .starting → .launch n ∈ m.agenda) (n : Name)
    (h : m'.run.stages.get? n = some .starting) : .launch n ∈ m'.agenda := by
  have later : ∀ {call rest}, m.agenda = call :: rest → call ≠ .launch n →
      m.run.stages.get? n = some .starting → .launch n ∈ rest := by
    intro call rest agenda different starting
    have mem := before n starting
    rw [agenda] at mem
    exact (List.mem_cons.1 mem).resolve_left (Ne.symm different)
  cases s with
  | keep agenda agenda' _ launches _ same =>
    rw [same.stages] at h
    have mem := before n h
    rw [agenda] at mem
    rw [agenda']
    exact List.mem_append_right _ ((List.mem_append.1 mem).resolve_left fun gone =>
      launches n gone h)
  | dispatch agenda agenda' _ _ run' =>
    rw [run', Coordinator.dispatch, stages_wake] at h
    rw [agenda']
    exact later agenda (fun h => by cases h) (starting_before (fun h => by cases h) h)
  | worker agenda _ _ turn =>
    refine (turn.starting h).resolve_left fun starting => ?_
    have mem := before n starting
    rw [agenda] at mem
    cases mem
  | executor agenda _ _ _ turn =>
    have starting : m.run.stages.get? n = some .starting := by
      generalize m'.run = d at turn h
      cases turn <;> exact h
    have mem := before n starting
    rw [agenda] at mem
    cases mem
  | @launch k rest agenda agenda' here _ _ run' =>
    rw [run', stages_wake] at h
    rw [agenda']
    have starting := starting_before (s := .running) (by decide) h
    refine later agenda ?_ starting
    -- the worker that launches is in the next stage now
    rintro ⟨⟩
    simp [setStage, setExecution] at h
  | @abandon k rest agenda agenda' here _ _ run' =>
    rw [run'] at h
    rw [agenda']
    have h := starting_giveBack h
    refine List.mem_cons_of_mem _ (later agenda ?_ (starting_before (by decide) h))
    rintro ⟨⟩
    simp [setStage] at h
  | ended agenda agenda' _ _ run' =>
    rw [run', stages_wake] at h
    rw [agenda']
    exact later agenda (fun h => by cases h) h
  | resume agenda pauses _ _ _ same =>
    rw [same.stages] at h
    have mem := before n h
    rw [agenda] at mem
    refine (List.mem_append.1 mem).resolve_left fun gone => ?_
    cases pauses _ gone
  | stop agenda agenda' _ _ run' =>
    rw [run'] at h
    rw [agenda']
    exact List.mem_append_right _ (later agenda (fun h => by cases h) h)

end Launches

/-- An execution that has begun does not take that back. -/
theorem Post.Step.hasBegun {stopped : Bool} {order : Option Bool} {p q : Post}
    (h : Step stopped order p q) (hp : p.fits = true) {e : Execution} (he : p.2 = some e)
    (begun : e.hasBegun = true) : ∃ e', q.2 = some e' ∧ e'.hasBegun = true := by
  cases h with
  | launch e' => cases he; cases hp
  | cut e' =>
    refine ⟨e.cut, by rw [show e' = some e from he]; rfl, ?_⟩
    cases e <;> first | rfl | exact begun
  | begin | resume | goOn | done | drop => exact ⟨_, rfl, rfl⟩
  | stay | dispatch | skip | leave | queue | grant | start | finish => exact ⟨e, he, begun⟩

/-! ## Every move keeps the invariant -/

namespace Posted

variable {f : Flow} {m : Moment} {h : History} {n : Name} {code : Int} (p : Posted f m h)

include p

/-- A leaf that a worker can end has left its waiting. -/
theorem left_of_canEnd (r : Recorded f m h) (c : m.run.CanEnd n code) : m.status n ≠ .waiting := by
  rcases c with ⟨here, -⟩ | ⟨-, -, s, here, run⟩ | ⟨o, here, -, -⟩
  · exact r.status_ne_waiting (p.verdict n _ _ here rfl)
  · exact r.status_ne_waiting (p.verdict n s _ here run)
  · exact r.status_ne_waiting (p.verdict n _ _ here rfl)

/-- A worker ends its leaf with an exit code that the leaf has earned. -/
theorem earned_of_canEnd (c : m.run.CanEnd n code) : Earned f m h n code := by
  rcases c with ⟨here, rfl⟩ | ⟨stopped, rfl, -⟩ | ⟨o, here, ended, rfl⟩
  · refine ⟨fun _ => rfl, fun _ run => ?_⟩
    rw [p.verdict n _ .skip here rfl] at run
    cases run
  · exact ⟨fun _ => rfl, fun _ _ => .inr ⟨stopped, rfl⟩⟩
  · refine ⟨fun skipped => ?_, fun _ _ => .inl ⟨o, ended, rfl⟩⟩
    rcases skipped with hv | hv <;> rw [p.verdict n _ .run here rfl] at hv <;> cases hv

end Posted

namespace Handed

variable {f : Flow} {m : Moment} {h : History} (con : f.Consistent) (o : Orderly f m)
  (r : Recorded f m h) (j : Judged f m h) (p : Posted f m h) (d : Handed f m h)

/-- A group ends with `skippedCode` if it was skipped. -/
private theorem earned_of_group (o : Orderly f m) (j : Judged f m h) {m' : Moment} (c : Change m m')
    {g : Name} {code : Int} (isGroup : f.isGroup g = true) (ended : m.ended? = some (g, code))
    (skipped : h.Skipped g) : code = skippedCode := by
  have closing := o.closing?_of_ended? c isGroup ended
  obtain ⟨active, q, hq, zero⟩ := Coordinator.closing?_ne_none.1
    (show m.run.closing? g ≠ none by rw [closing]; exact fun h => by cases h)
  rw [Coordinator.closing?, hq, Option.bind_some, if_pos ⟨active, zero⟩] at closing
  -- a skipped group that closes is bound to fail, since what is covered does not end
  rcases j.bound_of_skipped g q skipped active hq with failed | covered
  · rw [failed] at closing
    cases closing
    rfl
  · have := o.covers_of_ended? c ended
    omega

include con o r p in
/-- What was earned stays so. -/
private theorem earned_stays (x : Choice) {n : Name} {code : Int} (left : m.status n ≠ .waiting)
    (e : Earned f m h n code) : Earned f (m.next x) (m :: h) n code := by
  have given := fun v => r.verdict_cons_eq_some_iff (n := n) (v := v) o con
  have old : ∀ v, m.verdict? n ≠ some v := fun v hv => left (o.waiting_of_verdict? con hv)
  refine ⟨fun skipped => e.1 (skipped.imp ?_ ?_), fun isLeaf run => ?_⟩
  · exact fun hv => ((given _).1 hv).resolve_left (old _)
  · exact fun hv => ((given _).1 hv).resolve_left (old _)
  · rcases e.2 isLeaf (((given _).1 run).resolve_left (old _)) with ⟨o', ended, hc⟩ | ⟨stopped, hc⟩
    · exact .inl ⟨o', (p.post_next r o x n).ended (p.fits n) ended, hc⟩
    · exact .inr ⟨(o.shift_next x).stopped_stays stopped, hc⟩

include con o r j p d

/-- **Every move keeps a moment handed.** -/
theorem next (x : Choice) : Handed f (m.next x) (m :: h) := by
  have c := o.change_next x
  have shift := o.shift_next x
  have stays : ∀ n code, m.status n ≠ .waiting → Earned f m h n code →
      Earned f (m.next x) (m :: h) n code := fun _ _ => earned_stays con o r p x
  exact
    { launching := shift.launching d.launching
      completes := fun n code hn => by
        rcases shift.complete_before hn with before | ⟨covered, rfl⟩ | canEnd
        · -- a leaf whose end is on the agenda is in progress
          refine stays n code ?_ (d.completes n code before)
          have pos : 0 < m.weight (Call.completes n) :=
            total_pos_of_mem before (by simp [Call.completes])
          rw [(o.of_completes pos).2.1]
          decide
        · -- a leaf that was covered was skipped
          refine stays n _ ?_ ⟨fun _ => rfl, fun _ run => ?_⟩
          · rw [o.covered n covered]
            decide
          · rcases j.covered n covered with h | h <;> rw [run] at h <;> cases h
        · exact stays n code (p.left_of_canEnd r canEnd) (p.earned_of_canEnd canEnd)
      ends := fun n code hn => by
        rw [History.ends_cons, List.mem_append] at hn
        rcases hn with now | before
        · have now : m.ended? = some (n, code) := by simpa using now
          have active := (o.of_ended? c now).1
          refine stays n code (by rw [active]; decide) ?_
          obtain ⟨call, rest, agenda, rfl | ⟨rfl, -⟩, -⟩ := c.finish_of_ended? now
          · exact d.completes n code (by rw [agenda]; exact List.mem_cons_self)
          · -- what closes is a group, and it has earned its exit code by that
            have isGroup := (o.closes n (by rw [agenda]; exact List.mem_cons_self)).1
            refine ⟨earned_of_group o j c isGroup now, fun isLeaf => ?_⟩
            exact absurd isLeaf (Flow.not_isLeaf_of_isGroup isGroup)
        · refine stays n code ?_ (d.ends n code before)
          rw [r.status_of_end n code before]
          exact Status.ofExitCode_ne_waiting code
      nodup_invoked := by
        rcases shift.invoked with same | ⟨-, n, begun, spawned, -⟩
        · rw [same]
          exact d.nodup_invoked
        · -- an execution that has begun is not spawned, so it does not begin again
          rw [begun, List.nodup_cons]
          refine ⟨fun again => ?_, d.nodup_invoked⟩
          obtain ⟨e, he, hb⟩ := d.invoked n again
          rw [spawned] at he
          cases he
          cases hb
      invoked := fun n hn => by
        have old : n ∈ m.run.invoked →
            ∃ e, (m.next x).run.executions.get? n = some e ∧ e.hasBegun = true := fun hn => by
          obtain ⟨e, he, hb⟩ := d.invoked n hn
          exact (p.post_next r o x n).hasBegun (p.fits n) he hb
        rcases shift.invoked with same | ⟨-, n', begun, -, after⟩
        · exact old (same ▸ hn)
        · rw [begun, List.mem_cons] at hn
          rcases hn with rfl | hn
          · exact ⟨_, after, rfl⟩
          · exact old hn }

omit con o r j p d in
theorem initial (f : Flow) (workers : Nat) (registry : Registry) :
    Handed f (Moment.initial f workers registry) [] where
  launching n hn := by cases hn
  completes n code hn := by cases hn
  ends n code hn := by cases hn
  nodup_invoked := List.nodup_nil
  invoked n hn := by cases hn

end Handed

end StepFlow
