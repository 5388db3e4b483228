import StepFlow.Proofs.Course.Setup

/-! # Progress

A run never gets stuck. When no task is ready, nothing that could be decided is left undecided, and
if no execution is under way then every step has ended and the run is over. After a stop no
execution is under way when no task is ready.

The argument goes up the rank of phases: a step has started because what it waits for has ended and
its group has started, both at a lower rank, and a group has ended because its children have.

Main statement: `Setup.idle_run`. -/

namespace StepFlow

/-- Whether an execution is over. -/
def Execution.isOver : Execution → Bool
  | .ended _ | .dropped => true
  | .spawned | .begun | .resumed | .cancelled _ => false

/-- The agenda is **clear** of a step when nothing on it completes the step, counts a child of it,
closes it or skips it. -/
structure Moment.Clear (m : Moment) (n : Name) : Prop where
  completes : m.weight (Call.completes n) = 0
  covers : m.weight (Call.covers n) = 0
  counts : m.weight (Call.counts n) = 0
  close : .close n ∉ m.agenda

namespace Sound

variable {f : Flow} {workers : Nat} {asked : Bool} {m : Moment} {h : History}
  (s : Sound f workers asked m h) (idle : m.isIdle = true)

/-! ## When nothing is left to do on the spot -/

include s in
/-- Nothing that could be decided is left undecided by a run that was asked for. -/
theorem directive_of_settled (settled : m.agenda = []) (isAsked : asked = true) {t : Step}
    (found : f.step? t.name = some t) : f.directive m.run.statuses t = .noop := by
  by_contra decided
  -- what could be decided is about to be evaluated, but the agenda is empty
  rcases s.watched.due t found decided with evaluated | ⟨-, unasked | ⟨stop, -⟩⟩
  · rw [settled] at evaluated
    cases evaluated
  · rw [isAsked] at unasked
    cases unasked
  · rw [settled] at stop
    cases stop

include s in
/-- When every step has ended the run is over. -/
theorem remaining_of_ended (settled : m.agenda = [])
    (ended : ∀ n ∈ f.names, (m.status n).isTerminal = true) : m.run.remaining = 0 := by
  rw [s.counted.remaining, Moment.weight, settled, total_nil, Nat.add_zero, Moment.unfinished,
    List.countP_eq_zero]
  intro n hn
  simp [ended n hn]

/-! ## When nothing on the agenda bears on a step -/

include s in
/-- What has left its waiting has ended, if its children have, no worker is left with it and the
agenda is clear of it. -/
theorem terminal_of_children (wf : f.WellFormed) {n : Name} (clear : m.Clear n)
    (left : m.status n ≠ .waiting) (works : f.isLeaf n = true → m.run.works n = 0)
    (children : ∀ k, f.groupOf? k = some n → (m.status k).isTerminal = true) :
    (m.status n).isTerminal = true := by
  cases hn : m.status n with
  | waiting => exact absurd hn left
  | succeeded | failed => rfl
  | inProgress =>
    cases leaf : f.isLeaf n with
    | true =>
      -- nothing is left from which the end of a leaf could come
      have sum := s.orderly.leaf n leaf
      rw [hn, works leaf, clear.completes, clear.covers] at sum
      cases sum
    | false =>
      have isGroup : f.isGroup n = true := by
        rw [Flow.isLeaf_eq_not_isGroup (s.orderly.contains_of_status left)] at leaf
        simpa using leaf
      obtain ⟨p, hp⟩ := Option.isSome_iff_exists.1 ((s.counted.progress n).trans isGroup)
      -- nothing of the group is pending, so it is about to be closed
      have none : p.pending = 0 := by
        rw [s.counted.pending n p hp, clear.counts, Moment.unfinished, Nat.add_zero,
          List.countP_eq_zero]
        intro k hk
        simp [children k (wf.mem_childrenOf.1 hk)]
      have due := Coordinator.closing?_ne_none.2 ⟨hn, p, hp, none⟩
      rcases s.counted.closes n due with close | cover
      · exact absurd close clear.close
      · rw [clear.covers] at cover
        cases cover

include s in
/-- Steps that have left their waiting have ended, if with a group its children are among them, no
worker is left with a leaf of them and the agenda is clear of them all. -/
theorem terminal_of_closed (wf : f.WellFormed) {P : Name → Prop}
    (closed : ∀ n k, P n → f.groupOf? k = some n → P k) (clear : ∀ n, P n → m.Clear n)
    (left : ∀ n, P n → m.status n ≠ .waiting)
    (works : ∀ n, P n → f.isLeaf n = true → m.run.works n = 0) {n : Name} (hn : P n) :
    (m.status n).isTerminal = true := by
  obtain ⟨rank, ranking⟩ := wf.ranked
  -- by induction on a bound of the rank of the end, from the inside of a group out
  have all : ∀ r n, rank (.finish n) < r → P n → (m.status n).isTerminal = true := by
    intro r
    induction r with
    | zero => exact fun n lower => absurd lower (Nat.not_lt_zero _)
    | succ r ih =>
      intro n lower hn
      refine s.terminal_of_children wf (clear n hn) (left n hn) (works n hn) fun k direct => ?_
      have below := wf.rank_finish_lt_group ranking direct
      exact ih k (by omega) (closed n k hn direct)
  exact all _ n (Nat.lt_succ_self _) hn

/-! ## When no task is ready -/

theorem agenda_of_isIdle (idle : m.isIdle = true) : m.agenda = [] := by
  rw [Moment.isIdle, Bool.and_eq_true] at idle
  exact List.isEmpty_iff.1 idle.1

theorem ready_of_isIdle (idle : m.isIdle = true) : m.run.ready = [] := by
  rw [Moment.isIdle, Bool.and_eq_true, Coordinator.isIdle] at idle
  exact List.isEmpty_iff.1 idle.2

theorem weight_of_isIdle (idle : m.isIdle = true) (w : Call → Nat) : m.weight w = 0 := by
  rw [Moment.weight, agenda_of_isIdle idle]
  rfl

theorem clear_of_isIdle (idle : m.isIdle = true) (n : Name) : m.Clear n where
  completes := weight_of_isIdle idle _
  covers := weight_of_isIdle idle _
  counts := weight_of_isIdle idle _
  close mem := by
    rw [agenda_of_isIdle idle] at mem
    cases mem

include s idle

theorem workerDue_of_isIdle (n : Name) : (m.run.post n).workerDue m.run.stopped = false := by
  cases due : (m.run.post n).workerDue m.run.stopped with
  | false => rfl
  | true =>
    have ready := s.alert.worker n due
    rw [ready_of_isIdle idle] at ready
    cases ready

theorem isDue_of_isIdle {n : Name} {e : Execution} (he : m.run.executions.get? n = some e) :
    e.isDue = false := by
  cases due : e.isDue with
  | false => rfl
  | true =>
    have ready := s.alert.executor n e he due
    rw [ready_of_isIdle idle] at ready
    cases ready

/-- Nothing that could be decided is left undecided. -/
theorem directive_of_isIdle (isAsked : asked = true) {t : Step} (found : f.step? t.name = some t) :
    f.directive m.run.statuses t = .noop :=
  s.directive_of_settled (agenda_of_isIdle idle) isAsked found

/-- After a stop every execution is over. -/
theorem isOver_of_stopped (stopped : m.run.stopped = true) {n : Name} {e : Execution}
    (he : m.run.executions.get? n = some e) : e.isOver = true := by
  have sleeps := s.isDue_of_isIdle idle he
  cases e with
  | ended | dropped => rfl
  | spawned | resumed | cancelled => cases sleeps
  | begun =>
    -- the worker of an execution that waits runs, and it heeds the stop
    have fits := s.posted.fits n
    rw [Coordinator.post, he] at fits
    have running := Post.eq_running_of_fits fits rfl
    have rests := s.workerDue_of_isIdle idle n
    rw [Coordinator.post, he, running, stopped] at rests
    cases rests

/-- A worker holds a permit exactly while its execution is active. -/
theorem holds_eq_active (n : Name) : m.run.stages.weightAt Stage.holds n =
    m.run.executions.weightAt (fun e => if e.isActive then 1 else 0) n := by
  have rests := s.workerDue_of_isIdle idle n
  have fits := s.posted.fits n
  rw [Coordinator.post] at rests fits
  unfold Table.weightAt
  cases ht : m.run.stages.get? n with
  | none =>
    rw [ht] at fits
    rw [Post.eq_none_of_fits fits (by simp) (by simp)]
    rfl
  | some t =>
    rw [ht] at fits rests
    cases t with
    | dispatched | granted => cases rests
    | starting =>
      -- the launch of a start that was announced is on the agenda
      have launch := s.handed.launching n ht
      rw [agenda_of_isIdle idle] at launch
      cases launch
    | queued =>
      rw [Post.eq_none_of_fits fits (by simp) (by simp)]
      rfl
    | running =>
      -- an execution that is due would be ready, and one that has ended would wake its worker
      cases he : m.run.executions.get? n with
      | none => rw [he] at fits; cases fits
      | some e =>
        have sleeps := s.isDue_of_isIdle idle he
        rw [he] at rests fits
        cases e with
        | begun => rfl
        | spawned | resumed | cancelled => cases sleeps
        | ended => cases rests
        | dropped => cases fits
    | done =>
      cases he : m.run.executions.get? n with
      | none => rfl
      | some e =>
        have sleeps := s.isDue_of_isIdle idle he
        rw [he] at fits
        cases e with
        | ended | dropped => rfl
        | begun => cases fits
        | spawned | resumed | cancelled => cases sleeps

/-! ## When no execution is under way -/

section Quiet

variable (quiet : ∀ n e, m.run.executions.get? n = some e → e.isOver = true)

include quiet

/-- Nobody holds a permit. -/
private theorem holds_eq_zero {n : Name} {t : Stage} (ht : m.run.stages.get? n = some t) :
    t.holds = 0 := by
  have active := s.holds_eq_active idle n
  rw [Table.weightAt_of_get? ht] at active
  rw [active, Table.weightAt]
  cases he : m.run.executions.get? n with
  | none => rfl
  | some e =>
    have settled := quiet n e he
    cases e with
    | ended | dropped => rfl
    | spawned | begun | resumed | cancelled => cases settled

/-- No worker is left with something to end. -/
private theorem works_eq_zero (some_ : 0 < workers) (n : Name) : m.run.works n = 0 := by
  rw [Coordinator.works, Table.weightAt]
  cases ht : m.run.stages.get? n with
  | none => rfl
  | some t =>
    have rests := s.workerDue_of_isIdle idle n
    have free := s.holds_eq_zero idle quiet ht
    rw [Coordinator.post, ht] at rests
    cases t with
    | done => rfl
    | dispatched => cases rests
    | granted | starting | running => cases free
    | queued =>
      -- while a worker queues all permits are held, and nobody holds one
      have none : m.run.permits = 0 := by
        apply s.permits.scarce
        intro empty
        have waits := (s.permits.waiting n).2 ht
        rw [empty] at waits
        cases waits
      have total := s.permits.total
      rw [none, Table.weigh_eq_zero s.permits.nodup_stages fun _ _ => s.holds_eq_zero idle quiet]
        at total
      omega

/-- **When no execution is under way either, every step has ended.** -/
theorem terminal_of_isIdle (wf : f.WellFormed) (some_ : 0 < workers) (isAsked : asked = true)
    {n : Name} (known : f.contains n = true) : (m.status n).isTerminal = true := by
  obtain ⟨rank, ranking⟩ := wf.ranked
  -- by induction on a bound of the ranks: starts have left their waiting, and ends have come
  have phases : ∀ r n, f.contains n = true →
      (rank (.start n) < r → m.status n ≠ .waiting) ∧
        (rank (.finish n) < r → (m.status n).isTerminal = true) := by
    intro r
    induction r with
    | zero => exact fun n _ => ⟨fun h => absurd h (Nat.not_lt_zero _),
        fun h => absurd h (Nat.not_lt_zero _)⟩
    | succ r ih =>
      intro n known
      obtain ⟨t, found⟩ := Flow.contains_iff_exists.1 known
      have name := Flow.step?_name found
      subst name
      have started : rank (.start t.name) < r + 1 → m.status t.name ≠ .waiting := by
        intro lower waits
        -- if it waited the rule would decide: its group has started and has not ended, because
        -- this child of it has not, and what it waits for has ended
        refine Flow.directive_ne_noop_iff.2 ⟨waits, fun g hg => ?_, fun d hd => ?_⟩
          (s.directive_of_isIdle idle isAsked found)
        · have child : f.groupOf? t.name = some g := by rw [Flow.groupOf?_of_step? found, hg]
          have below := wf.rank_start_group_lt ranking child
          obtain ⟨u, hu, -⟩ := wf.exists_group_of_groupOf? child
          have left := (ih g (Flow.contains_of_step? hu)).1 (by omega)
          cases status : m.status g with
          | inProgress => exact status
          | waiting => exact absurd status left
          | succeeded | failed =>
            have settled := s.counted.ended_child t.name g child (by rw [status]; rfl)
            rw [waits] at settled
            cases settled
        · obtain ⟨mem, src⟩ := Flow.mem_edgesFrom.1 hd
          have below := wf.rank_finish_dst_lt ranking mem
          rw [src] at below
          exact (ih d.dst (wf.contains_dst mem)).2 (by omega)
      refine ⟨started, fun lower => ?_⟩
      -- it has started, and its children end at a lower rank
      have first := wf.rank_start_lt_finish ranking known
      refine s.terminal_of_children wf (clear_of_isIdle idle _) (started (by omega))
        (fun _ => s.works_eq_zero idle quiet some_ _) fun k child => ?_
      have below := wf.rank_finish_lt_group ranking child
      exact (ih k (Flow.contains_of_groupOf? child)).2 (by omega)
  exact (phases (rank (.finish n) + 1) n known).2 (Nat.lt_succ_self _)

/-- When no execution is under way either, the run is over. -/
theorem remaining_of_isIdle (wf : f.WellFormed) (some_ : 0 < workers) (isAsked : asked = true) :
    m.run.remaining = 0 :=
  s.remaining_of_ended (agenda_of_isIdle idle) fun _ hn =>
    s.terminal_of_isIdle idle quiet wf some_ isAsked (Flow.contains_iff_mem_names.2 hn)

end Quiet

end Sound

/-! ## Runs that are idle -/

/-- **A run never gets stuck.** When no task of a run that was started or stopped is ready, the
decision rule has nothing to do with any step; if every execution is over as well then every step
has ended, none is left to be counted and the answer to waiting for the end is there; and after a
stop every execution is over. -/
theorem Setup.idle_run (s : Setup) (xs : List Choice) (asked : s.asked xs = true)
    (idle : (s.after xs).isIdle = true) :
    (∀ t ∈ s.flow.steps, s.flow.directive (s.after xs).run.statuses t = .noop) ∧
      ((∀ n e, (s.after xs).run.executions.get? n = some e → e.isOver = true) →
        (∀ n ∈ s.flow.names, ((s.after xs).status n).isTerminal = true) ∧
          (s.after xs).run.remaining = 0 ∧ (s.after xs).run.answer?.isSome = true) ∧
      ((s.after xs).run.stopped = true →
        ∀ n e, (s.after xs).run.executions.get? n = some e → e.isOver = true) := by
  have sound := s.sound xs
  have some_ := s.coordinator_eq.1
  refine ⟨fun t ht => ?_, fun quiet => ?_, fun stopped n e he => ?_⟩
  · exact sound.directive_of_isIdle idle asked (s.wellFormed.step?_of_mem ht)
  · have settled := sound.remaining_of_isIdle idle quiet s.wellFormed some_ asked
    refine ⟨fun n hn => ?_, settled, ?_⟩
    · exact sound.terminal_of_isIdle idle quiet s.wellFormed some_ asked
        (Flow.contains_iff_mem_names.2 hn)
    · rw [Coordinator.answer?, Coordinator.isFinished, settled]
      rfl
  · exact sound.isOver_of_stopped idle stopped he

/-- A run of the small setup ends idle with every execution over, so that every step has ended. -/
theorem Setup.idle_run_sample :
    (sample.asked (sampleRun (.exit 0) (.exit 3)) = true ∧
        (sample.after (sampleRun (.exit 0) (.exit 3))).isIdle = true) ∧
      (∀ t ∈ sample.flow.steps,
        sample.flow.directive (sample.after (sampleRun (.exit 0) (.exit 3))).run.statuses t =
          .noop) ∧
      (∀ n ∈ sample.flow.names,
        ((sample.after (sampleRun (.exit 0) (.exit 3))).status n).isTerminal = true) := by
  have asked : sample.asked (sampleRun (.exit 0) (.exit 3)) = true := by decide +kernel
  have idle : (sample.after (sampleRun (.exit 0) (.exit 3))).isIdle = true := by decide +kernel
  obtain ⟨noop, ended, -⟩ := sample.idle_run (sampleRun (.exit 0) (.exit 3)) asked idle
  refine ⟨⟨asked, idle⟩, noop, (ended fun n e he => ?_).1⟩
  have both : (sample.after (sampleRun (.exit 0) (.exit 3))).run.executions.entries =
      [("a", .ended (.exit 0)), ("b", .ended (.exit 3))] := by decide +kernel
  rw [Table.get?, both, Table.find?, Table.find?, Table.find?] at he
  split at he
  · cases he
    rfl
  · split at he
    · cases he
      rfl
    · cases he

end StepFlow
