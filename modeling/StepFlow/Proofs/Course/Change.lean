import StepFlow.Proofs.Course.Moment
import StepFlow.Proofs.Course.Decision
import StepFlow.Proofs.Course.Moves
import StepFlow.Proofs.Flow.WellFormed

/-! # What a move changes

A move can do only a few things to the steps and the groups of a flow, and `Change` lists them with
all that they change: the statuses, the progress of the groups, the count of what remains, the
workers that still owe an end to their leaf, and the agenda. Everything else that a move can do, to
tasks, permits, executions and listeners, is `idle` for the steps.

Main statement: `Moment.change_next`, that every move is one of these changes. What a step goes
through is read off the list, one case for each kind of change, and no operation of the coordinator
has to be opened again. -/

namespace StepFlow

/-! ## Weights of calls -/

namespace Call

/-- How often a call ends a leaf by itself. -/
def completes (n : Name) : Call → Nat
  | .complete k _ => if k = n then 1 else 0
  | _ => 0

/-- How often a call stands for the end of a skipped group or of a step that was claimed for it. -/
def covers (n : Name) : Call → Nat
  | .skip g claimed => (if g = n then 1 else 0) + (claimed.map (·.name)).count n
  | _ => 0

/-- How often a call counts a child of a group as finished. -/
def counts (g : Name) : Call → Nat
  | .childFinished k _ => if k = g then 1 else 0
  | _ => 0

/-- How often a call counts a step as finished. -/
def countsDown : Call → Nat
  | .countDown => 1
  | _ => 0

/-- Whether a call neither ends nor counts anything, nor tells that something has ended. -/
def isLight : Call → Bool
  | .notify (.completed _ _) | .skip _ _ | .close _ | .complete _ _ | .childFinished _ _
  | .countDown => false
  | _ => true

/-- Whether a call neither ends nor counts a step by itself. -/
def isWeightless : Call → Bool
  | .skip _ _ | .complete _ _ | .childFinished _ _ | .countDown => false
  | _ => true

theorem isWeightless_of_isLight {call : Call} (h : call.isLight = true) :
    call.isWeightless = true := by
  cases call <;> first | rfl | cases h

/-- A **weight** of calls that only those count for which end or count something. -/
def IsWeight (w : Call → Nat) : Prop := ∀ call : Call, call.isWeightless = true → w call = 0

theorem isWeight_completes (n : Name) : IsWeight (completes n) := by
  intro call h
  cases call <;> first | rfl | cases h

theorem isWeight_covers (n : Name) : IsWeight (covers n) := by
  intro call h
  cases call <;> first | rfl | cases h

theorem isWeight_counts (g : Name) : IsWeight (counts g) := by
  intro call h
  cases call <;> first | rfl | cases h

theorem isWeight_countsDown : IsWeight countsDown := by
  intro call h
  cases call <;> first | rfl | cases h

end Call

/-! ## The list of changes -/

/-- Whether a call that is carried out now leaves the steps and groups as they are. -/
def Coordinator.Spent (c : Coordinator) : Call → Prop
  | .evaluate n => ∀ s, c.flow.step? n = some s → c.directive s = .noop
  | .close g => c.closing? g = none
  | call => call.isWeightless = true

theorem Coordinator.isWeightless_of_spent {c : Coordinator} {call : Call} (h : c.Spent call) :
    call.isWeightless = true := by
  cases call <;> first | rfl | exact h

open Coordinator

/-- **What a move changes** from a moment to the next one. -/
inductive Change (m m' : Moment) : Prop where
  /-- Nothing about the steps and groups. -/
  | idle {gone extra rest : List Call}
      (agenda : m.agenda = gone ++ rest) (agenda' : m'.agenda = extra ++ rest)
      (spent : ∀ call ∈ gone, m.run.Spent call) (light : ∀ call ∈ extra, call.isLight = true)
      (agrees : Agrees m.run m'.run) (works : ∀ k, m'.run.works k = m.run.works k)
      (commit? : m.commit? = none) (ended? : m.ended? = none)
  /-- A worker hands over the end of its leaf. -/
  | handOver {gone extra rest : List Call} {n : Name} {code : Int}
      (agenda : m.agenda = gone ++ rest)
      (agenda' : m'.agenda = extra ++ .complete n code :: rest)
      (spent : ∀ call ∈ gone, m.run.Spent call) (light : ∀ call ∈ extra, call.isLight = true)
      (agrees : Agrees m.run m'.run) (worked : m.run.works n = 1)
      (works : ∀ k, m'.run.works k = if n = k then 0 else m.run.works k)
      (commit? : m.commit? = none) (ended? : m.ended? = none)
  /-- A leaf is committed and gets a worker. -/
  | leaf {s : Step} {rest : List Call}
      (agenda : m.agenda = .evaluate s.name :: rest) (agenda' : m'.agenda = rest)
      (found : m.run.flow.step? s.name = some s) (isLeaf : s.isGroup = false)
      (waits : m.status s.name = .waiting) (directive : m.run.directive s ≠ .noop)
      (flow : m'.run.flow = m.run.flow)
      (statuses : m'.run.statuses = m.run.statuses.set s.name .inProgress)
      (progress : m'.run.progress = m.run.progress)
      (remaining : m'.run.remaining = m.run.remaining)
      (works : ∀ k, m'.run.works k = if s.name = k then 1 else m.run.works k)
      (commit? : m.commit? = some (s.name, m.run.directive s)) (ended? : m.ended? = none)
  /-- A group is committed to run. -/
  | group {s : Step} {rest : List Call}
      (agenda : m.agenda = .evaluate s.name :: rest)
      (agenda' : m'.agenda = .notify (.started s.name) ::
        (m.run.flow.rootsIn s.name).map (fun r => Call.evaluate r.name) ++ .close s.name :: rest)
      (found : m.run.flow.step? s.name = some s) (isGroup : s.isGroup = true)
      (waits : m.status s.name = .waiting) (directive : m.run.directive s = .run)
      (flow : m'.run.flow = m.run.flow)
      (statuses : m'.run.statuses = m.run.statuses.set s.name .inProgress)
      (progress : m'.run.progress = m.run.progress)
      (remaining : m'.run.remaining = m.run.remaining)
      (works : ∀ k, m'.run.works k = m.run.works k)
      (commit? : m.commit? = some (s.name, .run)) (ended? : m.ended? = none)
  /-- A group is committed to be skipped, and what waits below it is claimed. -/
  | skip {s : Step} {claimed : List Step} {rest : List Call}
      (agenda : m.agenda = .evaluate s.name :: rest)
      (agenda' : m'.agenda = .notify (.started s.name) :: .skip s.name claimed :: rest)
      (found : m.run.flow.step? s.name = some s) (isGroup : s.isGroup = true)
      (waits : m.status s.name = .waiting) (directive : m.run.directive s = .skip)
      (sublist : claimed.Sublist (m.run.flow.below s.name))
      (nodup : (claimed.map (·.name)).Nodup)
      (mem : ∀ n, n ∈ claimed.map (·.name) ↔ n ∈ (m.run.flow.below s.name).map (·.name) ∧
        m.run.statuses.knows n = true ∧ m.status n = .waiting)
      (flow : m'.run.flow = m.run.flow)
      (knows : ∀ n, m'.run.statuses.knows n = m.run.statuses.knows n)
      (status : ∀ n, m'.status n =
        if s.name = n ∨ n ∈ claimed.map (·.name) then .inProgress else m.status n)
      (progress : m'.run.progress = m.run.progress)
      (remaining : m'.run.remaining = m.run.remaining)
      (works : ∀ k, m'.run.works k = m.run.works k)
      (commit? : m.commit? = some (s.name, .skip)) (ended? : m.ended? = none)
  /-- A skipped group and the groups that were claimed for it are marked, and the end of what was
  claimed begins. -/
  | mark {g : Name} {claimed : List Step} {rest : List Call}
      (agenda : m.agenda = .skip g claimed :: rest)
      (agenda' : m'.agenda = (m.run.skip g claimed).1 ++ rest)
      (flow : m'.run.flow = m.run.flow) (statuses : m'.run.statuses = m.run.statuses)
      (progress : ∀ h, m'.run.progress.get? h =
        if h ∈ g :: (claimed.filter (·.isGroup)).map (·.name)
        then (m.run.progress.get? h).map fun p => { p with failed := true }
        else m.run.progress.get? h)
      (remaining : m'.run.remaining = m.run.remaining)
      (works : ∀ k, m'.run.works k = m.run.works k)
      (commit? : m.commit? = none) (ended? : m.ended? = none)
  /-- A step ends: a leaf that is completed or a group that closes. -/
  | finish {n : Name} {code : Int} {call : Call} {rest : List Call}
      (agenda : m.agenda = call :: rest)
      (cause : call = .complete n code ∨ (call = .close n ∧ m.run.closing? n = some code))
      (agenda' : m'.agenda = m.run.propagation n code ++ rest)
      (flow : m'.run.flow = m.run.flow)
      (statuses : m'.run.statuses = m.run.statuses.set n (.ofExitCode code))
      (progress : m'.run.progress = m.run.progress)
      (remaining : m'.run.remaining = m.run.remaining)
      (works : ∀ k, m'.run.works k = m.run.works k)
      (commit? : m.commit? = none) (ended? : m.ended? = some (n, code))
  /-- A group counts a child as finished. -/
  | count {g : Name} {code : Int} {rest : List Call}
      (agenda : m.agenda = .childFinished g code :: rest) (agenda' : m'.agenda = .close g :: rest)
      (flow : m'.run.flow = m.run.flow) (statuses : m'.run.statuses = m.run.statuses)
      (progress : ∀ h, m'.run.progress.get? h =
        if h = g
        then (m.run.progress.get? h).map fun p =>
          { pending := p.pending - 1, failed := p.failed || code ≠ 0 }
        else m.run.progress.get? h)
      (remaining : m'.run.remaining = m.run.remaining)
      (works : ∀ k, m'.run.works k = m.run.works k)
      (commit? : m.commit? = none) (ended? : m.ended? = none)
  /-- The run counts a step as finished. -/
  | down {rest : List Call}
      (agenda : m.agenda = .countDown :: rest) (agenda' : m'.agenda = rest)
      (flow : m'.run.flow = m.run.flow) (statuses : m'.run.statuses = m.run.statuses)
      (progress : m'.run.progress = m.run.progress)
      (remaining : m'.run.remaining = m.run.remaining - 1)
      (works : ∀ k, m'.run.works k = m.run.works k)
      (commit? : m.commit? = none) (ended? : m.ended? = none)

/-! ## Every move is a change -/

section Moves

variable {c : Coordinator} {rest : List Call}

/-- A call tells of no end if only light calls follow from it. -/
private theorem ended?_of_light {call : Call}
    (light : ∀ k ∈ (c.perform call).1, k.isLight = true) :
    (Moment.mk (call :: rest) c).ended? = none := by
  simp only [Moment.ended?]
  split
  · -- the announcement of an end is not light
    rename_i n code tail h
    have := light (.notify (.completed n code)) (by rw [h]; exact List.mem_cons_self)
    cases this
  · rfl

/-- A call from which only light calls follow and that keeps the steps is idle. -/
private theorem change_idle (call : Call) (spent : c.Spent call)
    (light : ∀ k ∈ (c.perform call).1, k.isLight = true)
    (agrees : Agrees c (c.perform call).2) (works : ∀ k, (c.perform call).2.works k = c.works k)
    (commit? : (Moment.mk (call :: rest) c).commit? = none) :
    Change ⟨call :: rest, c⟩ ⟨(c.perform call).1 ++ rest, (c.perform call).2⟩ :=
  @Change.idle _ _ [call] _ rest rfl rfl (by simpa using spent) light agrees works commit?
    (ended?_of_light light)

theorem isLight_startCalls : ∀ k ∈ c.startCalls, k.isLight = true := by
  intro k hk
  obtain ⟨s, -, rfl⟩ := List.mem_map.1 hk
  rfl

theorem isLight_reactionCalls (r : Reaction) : ∀ k ∈ c.reactionCalls r, k.isLight = true := by
  intro k hk
  cases r with
  | start => exact isLight_startCalls k hk
  | stop => rw [List.mem_singleton.1 hk]; rfl
  | add l => rw [List.mem_singleton.1 hk]; rfl
  | remove number => rw [List.mem_singleton.1 hk]; rfl
  | panic => cases hk

private theorem change_stop :
    Change ⟨.stop :: rest, c⟩ ⟨c.stop.1 ++ rest, c.stop.2⟩ := by
  refine change_idle .stop rfl ?_ ?_ ?_ rfl
  · intro k hk
    simp only [perform, stop] at hk
    split at hk
    · cases hk
    · exact isLight_startCalls k hk
  · simp only [perform, stop]
    split <;> exact ⟨rfl, rfl, rfl, rfl⟩
  · intro k
    simp only [perform, stop]
    split <;> rfl

private theorem change_notify (e : Event) :
    Change ⟨.notify e :: rest, c⟩
      ⟨(c.perform (.notify e)).1 ++ rest, (c.perform (.notify e)).2⟩ := by
  refine change_idle (.notify e) rfl ?_ (.refl c) (fun _ => rfl) rfl
  intro k hk
  obtain ⟨number, -, rfl⟩ := List.mem_map.1 hk
  rfl

private theorem change_deliver (number : Nat) (e : Event) :
    Change ⟨.deliver number e :: rest, c⟩
      ⟨(c.perform (.deliver number e)).1 ++ rest, (c.perform (.deliver number e)).2⟩ := by
  refine change_idle (.deliver number e) rfl ?_ ⟨rfl, rfl, rfl, rfl⟩ (fun _ => rfl) rfl
  intro k hk
  obtain ⟨r, -, hr⟩ := List.mem_flatMap.1 hk
  exact isLight_reactionCalls r k hr

private theorem change_close (g : Name) :
    Change ⟨.close g :: rest, c⟩ ⟨(c.close g).1 ++ rest, (c.close g).2⟩ := by
  cases hp : c.progress.get? g with
  | none =>
    have same : c.close g = ([], c) := by rw [close, hp]
    have spent : c.closing? g = none := by rw [closing?, hp]; rfl
    refine change_idle (.close g) spent ?_ ?_ ?_ rfl
    · rw [perform, same]; simp
    · rw [perform, same]; exact .refl c
    · intro k; rw [perform, same]
  | some p =>
    by_cases done : c.status g = .inProgress ∧ p.pending = 0
    · -- the group is in progress and complete: it ends
      have result : c.close g = (c.propagation g (if p.failed then skippedCode else 0),
          { c with statuses :=
            c.statuses.set g (.ofExitCode (if p.failed then skippedCode else 0)) }) := by
        rw [close, hp]
        simp only [if_pos done]
      refine @Change.finish _ _ g (if p.failed then skippedCode else 0) _ _ rfl
        (.inr ⟨rfl, ?_⟩) ?_ ?_ ?_ ?_ ?_ ?_ rfl ?_
      · rw [closing?, hp, Option.bind_some, if_pos done]
      all_goals simp only [result, Moment.ended?, perform, works, propagation, implies_true,
        List.cons_append]
    · -- the close comes too early or too late and has no effect
      have same : c.close g = ([], c) := by rw [close, hp]; simp only [if_neg done]
      have spent : c.closing? g = none := by rw [closing?, hp, Option.bind_some, if_neg done]
      refine change_idle (.close g) spent ?_ ?_ ?_ rfl
      · rw [perform, same]; simp
      · rw [perform, same]; exact .refl c
      · intro k; rw [perform, same]

private theorem change_complete (n : Name) (code : Int) :
    Change ⟨.complete n code :: rest, c⟩
      ⟨(c.perform (.complete n code)).1 ++ rest, (c.perform (.complete n code)).2⟩ :=
  .finish rfl (.inl rfl) rfl rfl rfl rfl rfl (fun _ => rfl) rfl rfl

private theorem change_skip (g : Name) (claimed : List Step) :
    Change ⟨.skip g claimed :: rest, c⟩ ⟨(c.skip g claimed).1 ++ rest, (c.skip g claimed).2⟩ := by
  refine .mark rfl rfl rfl rfl ?_ rfl (fun _ => rfl) rfl ?_
  · intro h
    exact get?_foldl_markFailed _ _ h
  · -- the first call that follows starts a group, completes a leaf or closes a group
    simp only [Moment.ended?, perform, skip]
    cases (claimed.filter (·.isGroup)).reverse <;> cases claimed.filter (!·.isGroup) <;>
      cases claimed.filter (·.isGroup) <;> rfl

private theorem change_childFinished (g : Name) (code : Int) :
    Change ⟨.childFinished g code :: rest, c⟩
      ⟨(c.childFinished g code).1 ++ rest, (c.childFinished g code).2⟩ := by
  cases hp : c.progress.get? g with
  | none =>
    have result : c.childFinished g code = ([.close g], c) := by rw [childFinished, hp]
    rw [result]
    refine .count rfl rfl rfl rfl ?_ rfl (fun _ => rfl) rfl ?_
    · intro h
      by_cases same : h = g
      · subst same
        simp [hp]
      · simp [same]
    · simp only [Moment.ended?, perform, result]
  | some p =>
    have result : c.childFinished g code = ([.close g],
        { c with
          progress := c.progress.set g
            { pending := p.pending - 1, failed := p.failed || code ≠ 0 } }) := by
      rw [childFinished, hp]
    rw [result]
    refine .count rfl rfl rfl rfl ?_ rfl (fun _ => rfl) rfl ?_
    · intro h
      by_cases same : h = g
      · subst same
        simp [hp]
      · simp [same, Ne.symm same]
    · simp only [Moment.ended?, perform, result]

private theorem change_noop {n : Name} (h : ∀ s, c.flow.step? n = some s → c.directive s = .noop) :
    Change ⟨.evaluate n :: rest, c⟩ ⟨(c.evaluate n).1 ++ rest, (c.evaluate n).2⟩ := by
  have same : c.evaluate n = ([], c) := by
    rcases c.evaluate_cases n with idle | ⟨s, found, -, -, ⟨decided, -⟩ | ⟨decided, -⟩⟩
    · exact idle
    · rw [h s found] at decided
      cases decided
    · rw [h s found] at decided
      cases decided
  have commit? : (Moment.mk (.evaluate n :: rest) c).commit? = none := by
    cases hs : c.flow.step? n with
    | none => simp [Moment.commit?, hs]
    | some s => simp [Moment.commit?, hs, h s hs]
  refine change_idle (.evaluate n) h ?_ ?_ ?_ commit?
  · rw [perform, same]; simp
  · rw [perform, same]; exact .refl c
  · intro k; rw [perform, same]

theorem commit?_of_directive {s : Step} (found : c.flow.step? s.name = some s)
    (h : c.directive s ≠ .noop) :
    (Moment.mk (.evaluate s.name :: rest) c).commit? = some (s.name, c.directive s) := by
  simp only [Moment.commit?, found, if_neg h]

private theorem change_commitRun {s : Step} (found : c.flow.step? s.name = some s)
    (known : c.statuses.knows s.name = true) (hd : c.directive s = .run) :
    Change ⟨.evaluate s.name :: rest, c⟩ ⟨(c.commitRun s).1 ++ rest, (c.commitRun s).2⟩ := by
  have decided : c.directive s ≠ .noop := by rw [hd]; decide
  have waits := waiting_of_directive decided
  have commit? := @commit?_of_directive c rest s found decided
  have evaluated := evaluate_of_run found known hd
  cases group : s.isGroup with
  | true =>
    have result : c.commitRun s = (.notify (.started s.name) ::
        (c.flow.rootsIn s.name).map (fun r => Call.evaluate r.name) ++ [.close s.name],
        c.commit s) := by
      simp only [commitRun, group, if_true]
      rfl
    rw [result]
    refine .group (s := s) rfl ?_ found group waits hd rfl rfl rfl rfl
      (fun _ => rfl) (by rw [commit?, hd]) ?_
    · simp only [List.append_assoc, List.singleton_append]
    · simp only [Moment.ended?, perform, evaluated, result, List.cons_append]
  | false =>
    have result : c.commitRun s = ([], (c.commit s).dispatch s.name false) := by
      simp only [commitRun, group, Bool.false_eq_true, if_false]
    rw [result]
    have agrees := agrees_wake
      ({ c with statuses := c.statuses.set s.name .inProgress
                stages := c.stages.set s.name (.dispatched false) }) (.worker s.name)
    refine .leaf (s := s) rfl rfl found group waits decided agrees.flow
      agrees.statuses agrees.progress agrees.remaining ?_ commit? ?_
    · intro k
      rw [dispatch, works_wake]
      exact Table.weightAt_set Stage.owes c.stages s.name k (.dispatched false)
    · simp only [Moment.ended?, perform, evaluated, result]

private theorem change_commitSkip {s : Step} (found : c.flow.step? s.name = some s)
    (known : c.statuses.knows s.name = true) (hd : c.directive s = .skip) :
    Change ⟨.evaluate s.name :: rest, c⟩ ⟨(c.commitSkip s).1 ++ rest, (c.commitSkip s).2⟩ := by
  have decided : c.directive s ≠ .noop := by rw [hd]; decide
  have waits := waiting_of_directive decided
  have commit? := @commit?_of_directive c rest s found decided
  have evaluated := evaluate_of_skip found known hd
  cases group : s.isGroup with
  | true =>
    -- what is below the group is claimed before the group itself is moved
    obtain ⟨sublist, nodup, mem, knows, status⟩ :=
      claimAll_spec (c.flow.below s.name) c.statuses
    have isKnown : (claimAll (c.flow.below s.name) c.statuses).2.knows s.name = true := by
      rw [knows, known]
    have result : c.commitSkip s =
        ([.notify (.started s.name),
            .skip s.name (claimAll (c.flow.below s.name) c.statuses).1],
          { c with statuses :=
            (claimAll (c.flow.below s.name) c.statuses).2.set s.name .inProgress }) := by
      rw [commitSkip, if_pos group]
      rfl
    rw [result]
    refine .skip (s := s) rfl rfl found group waits hd sublist nodup mem rfl
      ?_ ?_ rfl rfl (fun _ => rfl) (by rw [commit?, hd]) ?_
    · intro n
      rw [StatusTable.knows_set, knows]
    · intro n
      simp only [Moment.status, Coordinator.status]
      rw [StatusTable.status_set_of_knows isKnown, status]
      by_cases same : s.name = n <;> simp [same]
    · simp only [Moment.ended?, perform, evaluated, result]
  | false =>
    have result : c.commitSkip s = ([], (c.commit s).dispatch s.name true) := by
      simp only [commitSkip, group, Bool.false_eq_true, if_false]
    rw [result]
    have agrees := agrees_wake
      ({ c with statuses := c.statuses.set s.name .inProgress
                stages := c.stages.set s.name (.dispatched true) }) (.worker s.name)
    refine .leaf (s := s) rfl rfl found group waits decided agrees.flow
      agrees.statuses agrees.progress agrees.remaining ?_ commit? ?_
    · intro k
      rw [dispatch, works_wake]
      exact Table.weightAt_set Stage.owes c.stages s.name k (.dispatched true)
    · simp only [Moment.ended?, perform, evaluated, result]

private theorem change_evaluate (n : Name)
    (known : ∀ s, c.flow.step? n = some s → c.statuses.knows n = true) :
    Change ⟨.evaluate n :: rest, c⟩ ⟨(c.evaluate n).1 ++ rest, (c.evaluate n).2⟩ := by
  cases hs : c.flow.step? n with
  | none => exact change_noop fun s h => by rw [hs] at h; cases h
  | some s =>
    have name := Flow.step?_name hs
    subst name
    cases hd : c.directive s with
    | noop =>
      refine change_noop fun t ht => ?_
      rw [hs] at ht
      rw [← Option.some.inj ht, hd]
    | run =>
      rw [evaluate_of_run hs (known s hs) hd]
      exact change_commitRun hs (known s hs) hd
    | skip =>
      rw [evaluate_of_skip hs (known s hs) hd]
      exact change_commitSkip hs (known s hs) hd

private theorem change_launch (n : Name) :
    Change ⟨.launch n :: rest, c⟩ ⟨(c.launch n).1 ++ rest, (c.launch n).2⟩ := by
  by_cases starting : c.stages.get? n = some .starting
  · by_cases stopped : c.stopped = true
    · have result : c.launch n = ([.complete n skippedCode], (c.setStage n .done).giveBack) := by
        rw [launch, if_pos starting, if_pos stopped]
      -- those who heard of the start have stopped the run
      rw [result]
      refine @Change.handOver _ _ [.launch n] [] rest n skippedCode rfl rfl
        (by simp [Spent, Call.isWeightless]) (by simp)
        ((agrees_setStage c n .done).trans (agrees_giveBack _)) ?_ ?_ rfl ?_
      · exact Table.weightAt_of_get? starting
      · intro k
        rw [works_giveBack, works_setStage]
        rfl
      · simp only [Moment.ended?, perform, result]
    · have result : c.launch n =
          ([], ((c.setStage n .running).setExecution n .spawned).wake (.executor n)) := by
        rw [launch, if_pos starting, if_neg stopped]
      refine change_idle (.launch n) rfl ?_ ?_ ?_ rfl
      · rw [perform, result]; simp
      · rw [perform, result]
        exact ((agrees_setStage c n .running).trans (agrees_setExecution _ n .spawned)).trans
          (agrees_wake _ _)
      · intro k
        rw [perform, result, works_wake, works_setExecution, works_setStage]
        by_cases same : n = k
        · -- the worker goes on to the next stage and still owes the end
          subst same
          rw [if_pos rfl, works, Table.weightAt_of_get? starting]
          rfl
        · rw [if_neg same]
  · have same : c.launch n = ([], c) := by rw [launch, if_neg starting]
    refine change_idle (.launch n) rfl ?_ ?_ ?_ rfl
    · rw [perform, same]; simp
    · rw [perform, same]; exact .refl c
    · intro k; rw [perform, same]

/-- **Every call that is carried out is a change.** -/
theorem change_perform (call : Call)
    (known : ∀ n s, c.flow.step? n = some s → c.statuses.knows n = true) :
    Change ⟨call :: rest, c⟩ ⟨(c.perform call).1 ++ rest, (c.perform call).2⟩ := by
  cases call with
  | stop => exact change_stop
  | subscribe l =>
    exact change_idle (.subscribe l) rfl (by simp [perform]) ⟨rfl, rfl, rfl, rfl⟩
      (fun _ => rfl) rfl
  | unsubscribe number =>
    exact change_idle (.unsubscribe number) rfl (by simp [perform]) ⟨rfl, rfl, rfl, rfl⟩
      (fun _ => rfl) rfl
  | notify e => exact change_notify e
  | deliver number e => exact change_deliver number e
  | evaluate n => exact change_evaluate n (known n)
  | skip g claimed => exact change_skip g claimed
  | close g => exact change_close g
  | complete n code => exact change_complete n code
  | childFinished g code => exact change_childFinished g code
  | countDown => exact .down rfl rfl rfl rfl rfl rfl (fun _ => rfl) rfl rfl
  | launch n => exact change_launch n
  | pause n o =>
    exact change_idle (.pause n o) rfl (by simp [perform]) (agrees_pause c n o)
      (fun k => works_pause c n k o) rfl

/-! ## Turns and choices -/

/-- A turn of a worker that ends nothing is idle. -/
private theorem change_working {d : Coordinator} {extra : List Call}
    (light : ∀ call ∈ extra, call.isLight = true) (agrees : Agrees c d)
    (works : ∀ k, d.works k = c.works k) : Change ⟨[], c⟩ ⟨extra, d⟩ :=
  @Change.idle _ _ [] extra [] rfl (by simp) (by simp) light agrees works rfl rfl

/-- A worker that moves on to a stage in which it still owes an end is idle. -/
private theorem change_moving {d : Coordinator} {extra : List Call} {n : Name} {old new : Stage}
    (light : ∀ call ∈ extra, call.isLight = true) (agrees : Agrees c d)
    (stages : d.stages = c.stages.set n new) (here : c.stages.get? n = some old)
    (same : new.owes = old.owes) : Change ⟨[], c⟩ ⟨extra, d⟩ := by
  refine change_working light agrees fun k => ?_
  rw [works, stages, Table.weightAt_set]
  by_cases h : n = k
  · subst h
    rw [if_pos rfl, works, Table.weightAt_of_get? here, same]
  · rw [if_neg h]
    rfl

/-- A worker that is done hands over the end of its leaf. -/
private theorem change_done {d : Coordinator} (extra : List Call) {n : Name} {code : Int}
    {old : Stage} (light : ∀ call ∈ extra, call.isLight = true)
    (agrees : Agrees (c.setStage n .done) d) (works : ∀ k, d.works k = (c.setStage n .done).works k)
    (here : c.stages.get? n = some old) (owes : old.owes = 1) :
    Change ⟨[], c⟩ ⟨extra ++ [.complete n code], d⟩ := by
  refine @Change.handOver _ _ [] extra [] n code rfl rfl (by simp) light
    ((agrees_setStage c n .done).trans agrees) ?_ ?_ rfl rfl
  · rw [Coordinator.works, Table.weightAt_of_get? here, owes]
  · intro k
    rw [works, works_setStage]
    rfl

private theorem change_workerTurn {n : Name} {calls : List Call} {d : Coordinator}
    (turn : WorkerTurn c n calls d) : Change ⟨[], c⟩ ⟨calls, d⟩ := by
  have started : ∀ call ∈ [Call.notify (.started n), .launch n], call.isLight = true := by
    simp [Call.isLight]
  cases turn with
  | rest => exact change_working (by simp) (.refl c) fun _ => rfl
  | skip here =>
    exact change_done [.notify (.started n)] (by simp [Call.isLight]) (.refl _) (fun _ => rfl)
      here rfl
  | leave here => exact change_done [] (by simp) (.refl _) (fun _ => rfl) here rfl
  | take here => exact change_moving started ⟨rfl, rfl, rfl, rfl⟩ rfl here rfl
  | queue here => exact change_moving (by simp) ⟨rfl, rfl, rfl, rfl⟩ rfl here rfl
  | unqueue here =>
    exact change_done [] (by simp) ⟨rfl, rfl, rfl, rfl⟩ (fun _ => rfl) here rfl
  | decline here =>
    exact change_done [] (by simp) (agrees_giveBack _) (works_giveBack _) here rfl
  | start here => exact change_moving started ⟨rfl, rfl, rfl, rfl⟩ rfl here rfl
  | cut here =>
    exact change_done [] (by simp) ((agrees_cancel _ n).trans (agrees_giveBack _))
      (fun k => by rw [works_giveBack, works_cancel]) here rfl
  | finish here =>
    exact change_done [] (by simp) (agrees_giveBack _) (works_giveBack _) here rfl

theorem isLight_burstCalls (n : Name) (b : Burst) : ∀ k ∈ burstCalls n b, k.isLight = true := by
  intro k hk
  rcases List.mem_append.1 hk with told | last
  · obtain ⟨line, -, rfl⟩ := List.mem_map.1 told
    rfl
  · rw [List.mem_singleton.1 last]
    rfl

end Moves

/-- A turn changes the same whatever other tasks are ready. -/
private theorem change_of_ready {c : Coordinator} {m' : Moment} {ready : List Task}
    (h : Change ⟨[], { c with ready := ready }⟩ m') : Change ⟨[], c⟩ m' := by
  have spent_nil : ∀ call ∈ ([] : List Call), c.Spent call := by simp
  cases h with
  | idle agenda agenda' spent light agrees works _ _ =>
    obtain ⟨rfl, rfl⟩ := List.append_eq_nil_iff.1 agenda.symm
    exact @Change.idle _ _ [] _ [] rfl agenda' spent_nil light
      ⟨agrees.flow, agrees.statuses, agrees.progress, agrees.remaining⟩ works rfl rfl
  | handOver agenda agenda' spent light agrees worked works _ _ =>
    obtain ⟨rfl, rfl⟩ := List.append_eq_nil_iff.1 agenda.symm
    exact @Change.handOver _ _ [] _ [] _ _ rfl agenda' spent_nil light
      ⟨agrees.flow, agrees.statuses, agrees.progress, agrees.remaining⟩ worked works rfl rfl
  | leaf agenda => cases agenda
  | group agenda => cases agenda
  | skip agenda => cases agenda
  | mark agenda => cases agenda
  | finish agenda => cases agenda
  | count agenda => cases agenda
  | down agenda => cases agenda

private theorem change_choose (c : Coordinator) (x : Choice) : Change ⟨[], c⟩ (c.choose x) := by
  cases x with
  | request r =>
    cases r with
    | start => exact change_working isLight_startCalls (.refl c) fun _ => rfl
    | stop => exact change_working (by simp [Call.isLight]) (.refl c) fun _ => rfl
    | release n => exact change_working (by simp) (agrees_release c n) (works_release c n)
  | subscribe l => exact change_working (by simp [Call.isLight]) (.refl c) fun _ => rfl
  | unsubscribe number => exact change_working (by simp [Call.isLight]) (.refl c) fun _ => rfl
  | turn t burst =>
    rw [choose]
    split
    · refine @change_of_ready c _ (c.ready.erase t) ?_
      cases t with
      | worker n => exact change_workerTurn (workerTurn_spec _ n)
      | executor n =>
        simp only [turn]
        split
        · exact change_working (isLight_burstCalls n burst) (agrees_enter _ n _)
            (works_enter _ n · _)
        · exact change_working (by simp) (agrees_executorTurn _ n) (works_executorTurn _ n)
    · exact change_working (by simp) (.refl c) fun _ => rfl

namespace Moment

/-- **Every move is a change.** -/
theorem change_next (m : Moment)
    (known : ∀ n s, m.run.flow.step? n = some s → m.run.statuses.knows n = true) (x : Choice) :
    Change m (m.next x) := by
  obtain ⟨agenda, c⟩ := m
  cases agenda with
  | cons call rest => exact change_perform call known
  | nil => exact change_choose c x

end Moment

end StepFlow
