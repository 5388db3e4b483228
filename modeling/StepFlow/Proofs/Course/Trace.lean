import StepFlow.Proofs.Course.FreshEvents

/-! # The trace of a worker

What the moments of a run tell about the worker of a leaf. A leaf that was committed to run **got to
run** when its worker announced its start, and it was **cut off** when the run was stopped before
that. What became of a leaf whose worker is done can be told from the trace: it was to be skipped,
it got to run, or it was cut off, and only one of these.

Main statements: `Traced` is the invariant, and `Traced.next` says that every move keeps it. -/

namespace StepFlow

/-- Whether the worker of a leaf that is to run has not announced its start. -/
def Stage.isEarly : Stage → Bool
  | .dispatched false | .queued | .granted => true
  | .dispatched true | .starting | .running | .done => false

/-- Whether a worker has announced the start of its leaf or is done. -/
def Stage.isLate : Stage → Bool
  | .starting | .running | .done => true
  | .dispatched _ | .queued | .granted => false

namespace History

/-- A leaf **got to run** at some time if its worker announced its start with a permit. -/
def Admitted (h : History) (n : Name) : Prop := ∃ k ∈ h, k.run.stages.get? n = some .starting

/-- A leaf was **cut off** at some time if the run was stopped and its worker had not announced its
start. -/
def CutOff (h : History) (n : Name) : Prop :=
  ∃ k ∈ h, k.run.stopped = true ∧ ∃ s, k.run.stages.get? n = some s ∧ s.isEarly = true

instance (h : History) (n : Name) : Decidable (h.Admitted n) :=
  inferInstanceAs (Decidable (∃ k ∈ h, k.run.stages.get? n = some .starting))

theorem admitted_cons {m : Moment} {h : History} {n : Name} :
    Admitted (m :: h) n ↔ m.run.stages.get? n = some .starting ∨ h.Admitted n := by
  simp [Admitted]

theorem cutOff_cons {m : Moment} {h : History} {n : Name} : CutOff (m :: h) n ↔
    (m.run.stopped = true ∧ ∃ s, m.run.stages.get? n = some s ∧ s.isEarly = true) ∨
      h.CutOff n := by
  simp [CutOff]

end History

/-! ## Stages from move to move -/

namespace Post.Step

variable {stopped : Bool} {order : Option Bool} {p q : Post} (h : Step stopped order p q)

include h

/-- A worker that has announced its leaf, or is done, goes on from there. -/
theorem late {s : Stage} (hs : p.1 = some s) (late : s.isLate = true) :
    ∃ s', q.1 = some s' ∧ s'.isLate = true := by
  cases h with
  | dispatch => cases hs
  | skip | queue | grant => cases hs; cases late
  | start e _ early => exact ⟨_, rfl, rfl⟩
  | leave | launch | finish | cut => exact ⟨_, rfl, rfl⟩
  | stay | begin | resume | goOn | done | drop => exact ⟨s, hs, late⟩

/-- A worker starts early in a run that is not stopped. -/
theorem starting (hq : q.1 = some .starting) : p.1 = some .starting ∨
    (stopped = false ∧ ∃ s, p.1 = some s ∧ s.isEarly = true) := by
  cases h with
  | start e running early =>
    refine .inr ⟨running, _, rfl, ?_⟩
    rcases early with rfl | rfl <;> rfl
  | dispatch | skip | leave | queue | grant | launch | finish | cut => cases hq
  | stay | begin | resume | goOn | done | drop => exact .inl hq

/-- A worker runs after it has announced its start. -/
theorem running (hq : q.1 = some .running) :
    p.1 = some .starting ∨ p.1 = some .running := by
  cases h with
  | launch => exact .inl rfl
  | dispatch | skip | leave | queue | grant | start | finish | cut => cases hq
  | stay | begin | resume | goOn | done | drop => exact .inr hq

/-- How a worker gets done. -/
theorem isDone (hq : q.1 = some .done) : p.1 = some .done ∨ p.1 = some (.dispatched true) ∨
    (stopped = true ∧ ∃ s, p.1 = some s ∧ s.isEarly = true) ∨ p.1 = some .starting ∨
      p.1 = some .running := by
  cases h with
  | skip => exact .inr (.inl rfl)
  | leave e stopped early =>
    rcases early with rfl | rfl | rfl | rfl
    · exact .inr (.inr (.inl ⟨stopped, _, rfl, rfl⟩))
    · exact .inr (.inr (.inl ⟨stopped, _, rfl, rfl⟩))
    · exact .inr (.inr (.inl ⟨stopped, _, rfl, rfl⟩))
    · exact .inr (.inr (.inr (.inl rfl)))
  | finish | cut => exact .inr (.inr (.inr (.inr rfl)))
  | dispatch | queue | grant | start | launch => cases hq
  | stay | begin | resume | goOn | done | drop => exact .inl hq

/-- A worker that is done stays so. -/
theorem stays_done (hp : p.1 = some .done) : q.1 = some .done := by
  cases h with
  | stay | begin | resume | goOn | done | drop => exact hp
  | start e _ early => cases hp; rcases early with early | early <;> cases early
  | leave e _ early => rfl
  | dispatch | skip | queue | grant | launch | finish | cut => cases hp

/-- A worker that was early when the run was stopped stays early until it is done. -/
theorem stays_early (isStopped : stopped = true) {s : Stage} (hs : p.1 = some s)
    (early : s.isEarly = true ∨ s = .done) :
    ∃ s', q.1 = some s' ∧ (s'.isEarly = true ∨ s' = .done) := by
  cases h with
  | start e running => rw [isStopped] at running; cases running
  | launch e running => rw [isStopped] at running; cases running
  | dispatch => cases hs
  | queue | grant => exact ⟨_, rfl, .inl rfl⟩
  | skip | leave | finish | cut => exact ⟨_, rfl, .inr rfl⟩
  | stay | begin | resume | goOn | done | drop => exact ⟨s, hs, early⟩

/-- What has an execution keeps one. -/
theorem execution_stays (hp : p.2 ≠ none) : q.2 ≠ none := by
  cases h with
  | cut e => simpa using hp
  | stay | dispatch | skip | leave | queue | grant | start => exact hp
  | launch | finish | begin | resume | goOn | done | drop => simp

end Post.Step

/-! ## The invariant -/

/-- A moment is **traced** when the stages of the workers agree with what the moments of the run up
to it tell. -/
structure Traced (m : Moment) (h : History) : Prop where
  /-- The worker of a leaf that got to run has announced its start. -/
  late : ∀ n, History.Admitted (m :: h) n → ∃ s, m.run.stages.get? n = some s ∧ s.isLate = true
  /-- A leaf that runs got to run. -/
  admitted : ∀ n, m.run.stages.get? n = some .running → History.Admitted (m :: h) n
  /-- A leaf whose worker is done was to be skipped, got to run, or was cut off. -/
  done : ∀ n, m.run.stages.get? n = some .done →
    h.verdict n = some .skip ∨ History.Admitted (m :: h) n ∨ History.CutOff (m :: h) n
  /-- A leaf that was cut off never gets to run. -/
  cutOff : ∀ n, History.CutOff (m :: h) n → m.run.stopped = true ∧
    ¬ History.Admitted (m :: h) n ∧
    ∃ s, m.run.stages.get? n = some s ∧ (s.isEarly = true ∨ s = .done)
  /-- What got to run or was cut off was committed to run. -/
  run : ∀ n, History.Admitted (m :: h) n ∨ History.CutOff (m :: h) n → h.verdict n = some .run

theorem Stage.verdict?_of_isEarly {s : Stage} (h : s.isEarly = true) : s.verdict? = some .run := by
  cases s with
  | dispatched skip => cases skip <;> first | rfl | cases h
  | queued | granted => rfl
  | starting | running | done => cases h

theorem Stage.not_isLate_of_isEarly {s : Stage} (h : s.isEarly = true) : s.isLate = false := by
  cases s <;> first | rfl | cases h

namespace Traced

variable {f : Flow} {m : Moment} {h : History} (con : f.Consistent) (o : Orderly f m)
  (r : Recorded f m h) (p : Posted f m h) (t : Traced m h)

include con o r p t

/-- **Every move keeps a moment traced.** -/
theorem next (x : Choice) : Traced (m.next x) (m :: h) := by
  have step := p.post_next r o x
  have shift := o.shift_next x
  have posted := p.next con o r x
  have stays := fun n v => @Recorded.verdict_stays f m h n r o con v
  have late : ∀ n, History.Admitted (m.next x :: m :: h) n →
      ∃ s, (m.next x).run.stages.get? n = some s ∧ s.isLate = true := by
    intro n admitted
    rcases History.admitted_cons.1 admitted with now | before
    · exact ⟨_, now, rfl⟩
    · obtain ⟨s, hs, hl⟩ := t.late n before
      exact (step n).late hs hl
  exact
    { late
      admitted := fun n running => by
        rw [History.admitted_cons]
        rcases (step n).running running with starting | before
        · exact .inr (History.admitted_cons.2 (.inl starting))
        · exact .inr (t.admitted n before)
      done := fun n done => by
        -- each way to get done leaves its mark on the moment before or on the history
        rw [History.admitted_cons, History.cutOff_cons]
        rcases (step n).isDone done with before | skip | ⟨stopped, early⟩ | starting | running
        · exact (t.done n before).imp (stays n _) (.imp .inr .inr)
        · exact .inl (stays n _ (p.verdict n _ .skip skip rfl))
        · exact .inr (.inr (.inr (History.cutOff_cons.2 (.inl ⟨stopped, early⟩))))
        · exact .inr (.inl (.inr (History.admitted_cons.2 (.inl starting))))
        · exact .inr (.inl (.inr (t.admitted n running)))
      cutOff := fun n cut => by
        rcases History.cutOff_cons.1 cut with ⟨stopped, s, hs, early⟩ | before
        · -- a worker that is early now has not announced its leaf before
          refine ⟨stopped, fun admitted => ?_, s, hs, .inl early⟩
          obtain ⟨s', hs', hl⟩ := late n admitted
          rw [hs] at hs'
          cases hs'
          rw [Stage.not_isLate_of_isEarly early] at hl
          cases hl
        · -- a stop is not taken back, so the worker cannot announce its leaf any more
          obtain ⟨stopped, out, s, hs, early⟩ := t.cutOff n before
          obtain ⟨s', hs', early'⟩ := (step n).stays_early stopped hs early
          refine ⟨shift.stopped_stays stopped, fun admitted => ?_, s', hs', early'⟩
          rcases History.admitted_cons.1 admitted with now | old
          · have now : some s' = some Stage.starting := hs'.symm.trans now
            cases now
            rcases early' with h | h <;> cases h
          · exact out old
      run := fun n which => by
        rw [History.admitted_cons, History.cutOff_cons] at which
        rcases which with (starting | before) | (⟨-, s, hs, early⟩ | before)
        · exact posted.verdict n _ .run starting rfl
        · exact stays n _ (t.run n (.inl before))
        · exact posted.verdict n s .run hs (Stage.verdict?_of_isEarly early)
        · exact stays n _ (t.run n (.inr before)) }

omit con o r p t in
theorem initial (f : Flow) (workers : Nat) (registry : Registry) :
    Traced (Moment.initial f workers registry) [] := by
  have none : ∀ n, (Moment.initial f workers registry).run.stages.get? n = none := fun _ => rfl
  have out : ∀ n, ¬ History.Admitted [Moment.initial f workers registry] n := fun n h => by
    rcases History.admitted_cons.1 h with h | ⟨_, h, -⟩ <;> cases h
  have whole : ∀ n, ¬ History.CutOff [Moment.initial f workers registry] n := fun n h => by
    rcases History.cutOff_cons.1 h with ⟨h, -⟩ | ⟨_, h, -⟩ <;> cases h
  exact
    { late := fun n h => absurd h (out n)
      admitted := fun n h => by rw [none] at h; cases h
      done := fun n h => by rw [none] at h; cases h
      cutOff := fun n h => absurd h (whole n)
      run := fun n h => h.elim (fun h => absurd h (out n)) fun h => absurd h (whole n) }

end Traced

end StepFlow
