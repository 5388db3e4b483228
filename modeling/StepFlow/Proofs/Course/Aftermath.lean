import StepFlow.Proofs.Course.Account
import StepFlow.Proofs.Course.WindDown
import StepFlow.Proofs.Events

/-! # What a stopped run comes to

A run **winds down** when it is stopped, nothing is left to do on the spot, and from there on
nothing is invoked and nothing is put out any more until it is idle. Whichever way it winds down it
comes to the same end: every step ends with the same status and the same exit code, and what is told
of it is the same. Only between what is told of different steps the order may differ.

Main statements: `Setup.WindsDown.statuses_eq`, `Setup.WindsDown.told_eq` and
`Report.byStep_eq_of_filter_eq`. -/

namespace StepFlow

open Coordinator

/-! ## Events by step -/

namespace Report

private theorem le_trans_step (a b c : Event) (first : (a.step ≤ b.step : Bool) = true)
    (second : (b.step ≤ c.step : Bool) = true) : (a.step ≤ c.step : Bool) = true :=
  decide_eq_true (String.le_trans (of_decide_eq_true first) (of_decide_eq_true second))

private theorem le_total_step (a b : Event) :
    ((a.step ≤ b.step : Bool) || (b.step ≤ a.step : Bool)) = true := by
  rw [Bool.or_eq_true, decide_eq_true_eq, decide_eq_true_eq]
  exact String.le_total a.step b.step

/-- Putting events in the order of their steps keeps the order of those of one step. -/
theorem filter_byStep (events : List Event) (n : Name) :
    (byStep events).filter (·.step = n) = events.filter (·.step = n) := by
  have perm : (byStep events).Perm events := List.mergeSort_perm _ _
  have kept : (events.filter (·.step = n)).Sublist (byStep events) := by
    refine List.sublist_mergeSort le_trans_step le_total_step ?_ List.filter_sublist
    rw [List.pairwise_iff_forall_sublist]
    intro a b sub
    have first := (List.mem_filter.1 (sub.subset List.mem_cons_self)).2
    have second := (List.mem_filter.1 (sub.subset (List.mem_cons_of_mem a List.mem_cons_self))).2
    rw [of_decide_eq_true first, of_decide_eq_true second]
    exact decide_eq_true (String.le_refl n)
  have inside := kept.filter (·.step = n)
  simp only [List.filter_filter, Bool.and_self] at inside
  exact (inside.eq_of_length (perm.filter _).length_eq.symm).symm

/-- Events that are in the order of their steps are known from those of each step. -/
private theorem eq_of_ordered {events events' : List Event}
    (ordered : events.Pairwise fun a b => a.step ≤ b.step)
    (ordered' : events'.Pairwise fun a b => a.step ≤ b.step)
    (same : ∀ n, events.filter (·.step = n) = events'.filter (·.step = n)) : events = events' := by
  induction events generalizing events' with
  | nil =>
    cases events' with
    | nil => rfl
    | cons b rest' => exact absurd (same b.step) (by simp)
  | cons a rest ih =>
    have mem : a ∈ events' := by
      have here : a ∈ (a :: rest).filter (·.step = a.step) := by simp
      rw [same] at here
      exact (List.mem_filter.1 here).1
    cases events' with
    | nil => cases mem
    | cons b rest' =>
      have mem' : b ∈ a :: rest := by
        have here : b ∈ (b :: rest').filter (·.step = b.step) := by simp
        rw [← same] at here
        exact (List.mem_filter.1 here).1
      -- each of the two comes no later than the other, so they are of one step
      have first : a.step ≤ b.step := by
        rcases List.mem_cons.1 mem' with rfl | behind
        · exact String.le_refl _
        · exact (List.pairwise_cons.1 ordered).1 b behind
      have first' : b.step ≤ a.step := by
        rcases List.mem_cons.1 mem with rfl | behind
        · exact String.le_refl _
        · exact (List.pairwise_cons.1 ordered').1 a behind
      have step : b.step = a.step := String.le_antisymm first' first
      have heads := same a.step
      rw [List.filter_cons_of_pos (by simp), List.filter_cons_of_pos (by simp [step])] at heads
      obtain ⟨rfl, -⟩ := List.cons.inj heads
      refine congrArg (a :: ·) (ih ordered.of_cons ordered'.of_cons fun n => ?_)
      have others := same n
      by_cases mine : a.step = n
      · rw [List.filter_cons_of_pos (by simpa using mine),
          List.filter_cons_of_pos (by simpa using mine)] at others
        exact (List.cons.inj others).2
      · rw [List.filter_cons_of_neg (by simpa using mine),
          List.filter_cons_of_neg (by simpa using mine)] at others
        exact others

/-- **Events in the order of their steps** are known from those of each step. -/
theorem byStep_eq_of_filter_eq {events events' : List Event}
    (same : ∀ n, events.filter (·.step = n) = events'.filter (·.step = n)) :
    byStep events = byStep events' := by
  have ordered : ∀ es : List Event, (byStep es).Pairwise fun a b => a.step ≤ b.step := fun es =>
    (List.pairwise_mergeSort le_trans_step le_total_step es).imp of_decide_eq_true
  refine eq_of_ordered (ordered events) (ordered events') fun n => ?_
  rw [filter_byStep, filter_byStep, same]

end Report

/-! ## Tables of statuses -/

/-- An exact table is known from the statuses of the steps. -/
theorem StatusTable.Exact.eq_of_status_eq {f : Flow} {t t' : StatusTable} (con : f.Consistent)
    (e : t.Exact f) (e' : t'.Exact f) (same : ∀ n ∈ f.names, t.status n = t'.status n) :
    t = t' := by
  have table : t.entries.entries = t'.entries.entries := by
    refine (e.snapshot_eq con.nodup_names).trans (Eq.trans ?_ (e'.snapshot_eq con.nodup_names).symm)
    exact List.map_congr_left fun n hn => by rw [same n hn]
  have count : t.failures = t'.failures := by
    rw [e.failures, e'.failures, snapshot, snapshot, table]
  obtain ⟨⟨_⟩, _⟩ := t
  obtain ⟨⟨_⟩, _⟩ := t'
  cases table
  cases count
  rfl

namespace Setup

variable {s : Setup} {xs ys ys' : List Choice} {n : Name}

/-! ## What stays in a run -/

/-- The history of a moment goes on from that of an earlier one. -/
theorem past_isSuffix (s : Setup) (xs ys : List Choice) : s.past xs <:+ s.past (ys ++ xs) := by
  induction ys with
  | nil => exact List.suffix_rfl
  | cons y ys ih => exact ih.trans (List.suffix_cons _ _)

/-- A verdict that was given stays. -/
theorem verdict_append {v : Verdict} (given : History.verdict (s.past xs) n = some v)
    (ys : List Choice) : History.verdict (s.past (ys ++ xs)) n = some v := by
  induction ys with
  | nil => exact given
  | cons y ys ih =>
    have sound := s.sound (ys ++ xs)
    exact sound.recorded.verdict_stays sound.orderly s.wellFormed ih

private theorem mem_of_endsOf {ends : List (Name × Int)} {code : Int}
    (only : endsOf n ends.reverse = [.completed n code]) : (n, code) ∈ ends := by
  obtain ⟨code', mem, same⟩ :=
    mem_endsOf.1 (show .completed n code ∈ endsOf n ends.reverse by rw [only]; simp)
  cases same
  exact List.mem_reverse.1 mem

/-- A step ends once. -/
theorem code_unique (s : Setup) {code code' : Int} (mem : (n, code) ∈ History.ends (s.past xs))
    (mem' : (n, code') ∈ History.ends (s.past xs)) : code = code' := by
  have recorded := (s.sound xs).recorded
  have ended : ((s.after xs).status n).isTerminal = true := by
    rw [recorded.status_of_end n code mem]
    exact Status.isTerminal_ofExitCode code
  obtain ⟨last, only, -⟩ := recorded.endsOf_of_isTerminal ended
  have last_of : ∀ {code}, (n, code) ∈ History.ends (s.past xs) → code = last := fun mem => by
    have told := mem_endsOf.2 ⟨_, List.mem_reverse.2 mem, rfl⟩
    rw [only, List.mem_singleton] at told
    cases told
    rfl
  rw [last_of mem, last_of mem']

/-- A leaf that got to run did so for ever. -/
theorem admitted_append (admitted : History.Admitted (s.after xs :: s.past xs) n)
    (ys : List Choice) : History.Admitted (s.after (ys ++ xs) :: s.past (ys ++ xs)) n := by
  induction ys with
  | nil => exact admitted
  | cons y ys ih => exact History.admitted_cons.2 (.inr ih)

/-- No leaf gets to run after a stop. -/
theorem admitted_of_stopped (stopped : (s.after xs).run.stopped = true) (ys : List Choice)
    (admitted : History.Admitted (s.after (ys ++ xs) :: s.past (ys ++ xs)) n) :
    History.Admitted (s.after xs :: s.past xs) n := by
  refine (s.stopped_induction (P := fun m h => History.Admitted (m :: h) n →
    History.Admitted (s.after xs :: s.past xs) n) stopped id
    (fun x zs stopped old admitted => ?_) ys).2 admitted
  rcases History.admitted_cons.1 admitted with starting | before
  · have sound := s.sound zs
    have step := sound.posted.post_next sound.recorded sound.orderly x n
    rcases step.starting starting with still | ⟨running, -⟩
    · exact old (History.admitted_cons.2 (.inl still))
    · rw [stopped] at running
      cases running
  · exact old before

/-- A group ends with zero or with `skippedCode`. -/
theorem code_of_group (isGroup : s.flow.isGroup n = true) {code : Int}
    (ended : (n, code) ∈ History.ends (s.past xs)) : code = 0 ∨ code = skippedCode := by
  induction xs with
  | nil => cases ended
  | cons x earlier ih =>
    rw [past_cons, History.ends_cons, List.mem_append] at ended
    rcases ended with now | before
    · have orderly := (s.sound earlier).orderly
      have closing :=
        orderly.closing?_of_ended? (orderly.change_next x) isGroup (by simpa using now)
      obtain ⟨active, p, hp, zero⟩ := Coordinator.closing?_ne_none.1
        (show (s.after earlier).run.closing? n ≠ none by
          rw [closing]
          exact fun h => by cases h)
      rw [Coordinator.closing?, hp, Option.bind_some, if_pos ⟨active, zero⟩] at closing
      split at closing
      · exact .inr (Option.some.inj closing).symm
      · exact .inl (Option.some.inj closing).symm
    · exact ih before

/-- A choice other than a turn is still. -/
private theorem Still.of_choice (clear : (s.after xs).agenda = []) {x : Choice}
    (other : ∀ t burst, x ≠ .turn t burst) : s.Still xs [x] := by
  refine ⟨fun n => ?_, ?_⟩
  · show s.emitted n xs ++ (s.after xs).emits x n = s.emitted n xs
    unfold Moment.emits
    rw [clear]
    cases x with
    | turn t burst => exact absurd rfl (other t burst)
    | request | subscribe | unsubscribe => exact List.append_nil _
  · show ((s.after xs).next x).run.invoked = (s.after xs).run.invoked
    rw [Moment.next, clear]
    cases x with
    | turn t burst => exact absurd rfl (other t burst)
    | subscribe | unsubscribe => rfl
    | request r =>
      cases r with
      | start | stop => rfl
      | release n =>
        simp only [choose, release]
        split
        · simp
        · split <;> rfl

/-- **Nothing happens any more** in a stopped run in which no execution is live. -/
theorem Still.of_not_isLive (stopped : (s.after xs).run.stopped = true)
    (dead : ∀ n, ¬ (s.after xs).run.IsLive n) (ys : List Choice) : s.Still xs ys := by
  induction ys with
  | nil => exact .nil s xs
  | cons y ys ih =>
    show s.Still xs ([y] ++ ys)
    refine ih.append ?_
    cases agenda : (s.after (ys ++ xs)).agenda with
    | cons call rest => exact .of_call agenda y
    | nil =>
      cases y with
      | request | subscribe | unsubscribe => exact .of_choice agenda fun t burst h => by cases h
      | turn t burst =>
        have here : (s.after (ys ++ xs)).Alike ⟨[], (s.after (ys ++ xs)).run⟩ := by
          rw [← agenda]
          exact .refl _
        refine .of_turn here (fun n _ => ?_) burst
        by_contra asked
        exact dead n (isLive_of_stopped stopped ys (isLive_of_part? asked))

/-! ## Winding down -/

/-- A run **winds down** from a moment on: it is stopped, nothing is left to do on the spot, and it
goes on still until it is idle. -/
structure WindsDown (s : Setup) (xs ys : List Choice) : Prop where
  stopped : (s.after xs).run.stopped = true
  clear : (s.after xs).agenda = []
  still : s.Still xs ys
  idle : (s.after (ys ++ xs)).isIdle = true

namespace WindsDown

variable (a : s.WindsDown xs ys) (b : s.WindsDown xs ys')

include a

theorem stopped_after : (s.after (ys ++ xs)).run.stopped = true := stopped_append a.stopped ys

/-- Every step has ended. -/
theorem isTerminal (hn : n ∈ s.flow.names) : ((s.after (ys ++ xs)).status n).isTerminal = true :=
  (s.over_of_stopped a.stopped_after a.idle).1 n hn

/-- No execution is live. -/
theorem not_isLive (n : Name) : ¬ (s.after (ys ++ xs)).run.IsLive n := by
  rintro ⟨e, he, live⟩
  have done := (s.over_of_stopped a.stopped_after a.idle).2 n e he
  cases e with
  | ended | dropped => cases live
  | spawned | begun | resumed | cancelled => cases done

/-- No execution is active. -/
theorem not_isActive (e : Name × Execution)
    (mem : e ∈ (s.after (ys ++ xs)).run.executions.entries) : e.2.isActive = false := by
  have here := Table.get?_of_mem (s.manned (ys ++ xs)).nodup (n := e.1) (a := e.2) mem
  have done := (s.over_of_stopped a.stopped_after a.idle).2 e.1 e.2 here
  obtain ⟨n, e⟩ := e
  cases e with
  | ended | dropped => rfl
  | spawned | begun | resumed | cancelled => cases done

/-- All steps were counted. -/
theorem remaining : (s.after (ys ++ xs)).run.remaining = 0 := by
  have sound := s.sound (ys ++ xs)
  have asked : s.asked (ys ++ xs) = true := by
    by_contra unasked
    rw [Bool.not_eq_true] at unasked
    have running := (sound.watched.unasked unasked).1
    rw [a.stopped_after] at running
    cases running
  refine ((s.idle_run (ys ++ xs) asked a.idle).2.1 fun n e he => ?_).2.1
  exact (s.over_of_stopped a.stopped_after a.idle).2 n e he

/-! ### Verdicts -/

/-- What is run was so from the beginning. -/
theorem verdict_eq_run_iff : History.verdict (s.past (ys ++ xs)) n = some .run ↔
    History.verdict (s.past xs) n = some .run := by
  refine ⟨fun run => ?_, fun run => verdict_append run ys⟩
  rw [(s.sound (ys ++ xs)).recorded.verdict_eq_run_iff] at run
  exact (s.sound xs).recorded.verdict_eq_run_iff.2 (s.committed_of_stopped a.stopped ys run)

/-- What is not run is skipped. -/
theorem skipped_iff (hn : n ∈ s.flow.names) : History.Skipped (s.past (ys ++ xs)) n ↔
    History.verdict (s.past xs) n ≠ some .run := by
  rw [Ne, ← a.verdict_eq_run_iff]
  refine (s.sound (ys ++ xs)).recorded.skipped_iff fun waits => ?_
  have ended := a.isTerminal hn
  rw [waits] at ended
  cases ended

/-- What is skipped is claimed if its group is not run. -/
theorem verdict_eq_skip_iff (hn : n ∈ s.flow.names) :
    History.verdict (s.past (ys ++ xs)) n = some .skip ↔
      History.verdict (s.past xs) n ≠ some .run ∧
        ¬ ∃ g, s.flow.groupOf? n = some g ∧ History.verdict (s.past xs) g ≠ some .run := by
  have claimed : History.verdict (s.past (ys ++ xs)) n = some .claim ↔
      ∃ g, s.flow.groupOf? n = some g ∧ History.verdict (s.past xs) g ≠ some .run := by
    rw [(s.sound (ys ++ xs)).recorded.claim_iff_group]
    refine exists_congr fun g => and_congr_right fun direct => a.skipped_iff ?_
    obtain ⟨t, ht, -⟩ := s.wellFormed.exists_group_of_groupOf? direct
    exact Flow.contains_iff_mem_names.1 (Flow.contains_of_step? ht)
  have skipped := a.skipped_iff hn
  rw [← claimed, ← skipped, History.Skipped]
  constructor
  · intro skip
    exact ⟨.inl skip, fun claim => by rw [skip] at claim; cases claim⟩
  · rintro ⟨skip | claim, unclaimed⟩
    · exact skip
    · exact absurd claim unclaimed

/-! ### Statuses -/

/-- What had not ended at the beginning and is a leaf ends with `skippedCode`. -/
theorem code_of_leaf (isLeaf : s.flow.isLeaf n = true)
    (active : ((s.after xs).status n).isTerminal = false) {code : Int}
    (ended : (n, code) ∈ History.ends (s.past (ys ++ xs))) : code = skippedCode := by
  refine s.code_of_stopped a.stopped (fun k code mem => ?_) isLeaf active ys ended
  rw [a.clear] at mem
  cases mem

/-- A leaf that succeeds had ended by then. -/
theorem ended_of_leaf (isLeaf : s.flow.isLeaf n = true)
    (hn : (s.after (ys ++ xs)).status n = .succeeded) :
    ((s.after xs).status n).isTerminal = true := by
  by_contra active
  rw [Bool.not_eq_true] at active
  obtain ⟨code, mem, status⟩ :=
    (s.sound (ys ++ xs)).recorded.exists_end (n := n) (by rw [hn]; rfl)
  rw [a.code_of_leaf isLeaf active mem, hn] at status
  cases status

include b

/-- What succeeds one way does so the other way. -/
theorem succeeded_of_succeeded (hn : (s.after (ys ++ xs)).status n = .succeeded) :
    (s.after (ys' ++ xs)).status n = .succeeded := by
  obtain ⟨rank, ranking⟩ := s.wellFormed.ranked
  -- by induction on a bound of the rank of the end, from the inside of a group out
  have all : ∀ r n, rank (.finish n) < r → (s.after (ys ++ xs)).status n = .succeeded →
      (s.after (ys' ++ xs)).status n = .succeeded := by
    intro r
    induction r with
    | zero => exact fun n lower => absurd lower (Nat.not_lt_zero _)
    | succ r ih =>
      intro n lower hn
      have sound := s.sound (ys ++ xs)
      have sound' := s.sound (ys' ++ xs)
      have known := sound.orderly.contains_of_status (n := n) (by rw [hn]; decide)
      by_cases ended : ((s.after xs).status n).isTerminal = true
      · rw [s.status_of_stopped b.stopped ended, ← s.status_of_stopped a.stopped ended, hn]
      · -- it is a group, since a leaf that had not ended fails
        have isGroup : s.flow.isGroup n = true := by
          by_contra other
          have isLeaf := Flow.isLeaf_of_not_isGroup known (Bool.eq_false_of_not_eq_true other)
          exact ended (a.ended_of_leaf isLeaf hn)
        obtain ⟨run, children⟩ := sound.judged.succeeded n isGroup hn
        refine sound'.judged.succeeded_of_children sound'.recorded isGroup
          (b.verdict_eq_run_iff.2 (a.verdict_eq_run_iff.1 run))
          (b.isTerminal (Flow.contains_iff_mem_names.1 known)) fun k child => ?_
        have below := s.wellFormed.rank_finish_lt_group ranking child
        exact ih k (by omega) (children k child)
  exact all _ n (Nat.lt_succ_self _) hn

/-- **Every step ends with the same status.** -/
theorem status_eq (n : Name) :
    (s.after (ys ++ xs)).status n = (s.after (ys' ++ xs)).status n := by
  by_cases hn : n ∈ s.flow.names
  · have ended := a.isTerminal hn
    have ended' := b.isTerminal hn
    have there := a.succeeded_of_succeeded b (n := n)
    have back := b.succeeded_of_succeeded a (n := n)
    cases status : (s.after (ys ++ xs)).status n with
    | succeeded => exact (there status).symm
    | waiting | inProgress => rw [status] at ended; cases ended
    | failed =>
      cases status' : (s.after (ys' ++ xs)).status n with
      | failed => rfl
      | succeeded => rw [back status'] at status; cases status
      | waiting | inProgress => rw [status'] at ended'; cases ended'
  · -- what is no step waits for ever
    have waits : ∀ zs, (s.after zs).status n = .waiting := fun zs => by
      by_contra left
      exact hn (Flow.contains_iff_mem_names.1 ((s.sound zs).orderly.contains_of_status left))
    rw [waits, waits]

/-- **The statuses are the same.** -/
theorem statuses_eq :
    (s.after (ys ++ xs)).run.statuses = (s.after (ys' ++ xs)).run.statuses :=
  (s.exact (ys ++ xs)).eq_of_status_eq s.wellFormed (s.exact (ys' ++ xs)) fun n _ => a.status_eq b n

/-- The answer to waiting for the end is the same. -/
theorem answer?_eq :
    (s.after (ys ++ xs)).run.answer? = (s.after (ys' ++ xs)).run.answer? := by
  unfold answer? isFinished
  rw [a.statuses_eq b, a.remaining, b.remaining]

/-! ### Tales -/

/-- A step that ends both ways does so with the same exit code. -/
theorem code_eq {code code' : Int} (mem : (n, code) ∈ History.ends (s.past (ys ++ xs)))
    (mem' : (n, code') ∈ History.ends (s.past (ys' ++ xs))) : code = code' := by
  have status := (s.sound (ys ++ xs)).recorded.status_of_end n code mem
  have status' := (s.sound (ys' ++ xs)).recorded.status_of_end n code' mem'
  cases before : ((s.after xs).status n).isTerminal with
  | true =>
    -- it had ended by then, and ends once
    obtain ⟨first, old, -⟩ := (s.sound xs).recorded.exists_end before
    have kept : ∀ zs, (n, first) ∈ History.ends (s.past (zs ++ xs)) := fun zs =>
      ((s.past_isSuffix xs zs).filterMap _).subset old
    exact (s.code_unique mem (kept ys)).trans (s.code_unique (kept ys') mem')
  | false =>
    cases isGroup : s.flow.isGroup n with
    | false =>
      have known := (s.sound (ys ++ xs)).orderly.contains_of_status (n := n) fun waits =>
        Status.ofExitCode_ne_waiting code (status.symm.trans waits)
      have isLeaf := Flow.isLeaf_of_not_isGroup known isGroup
      rw [a.code_of_leaf isLeaf before mem, b.code_of_leaf isLeaf before mem']
    | true =>
      -- the exit code of a group tells no more than its status
      have same : Status.ofExitCode code = .ofExitCode code' :=
        status.symm.trans ((a.status_eq b n).trans status')
      rcases s.code_of_group isGroup mem with rfl | rfl <;>
        rcases s.code_of_group isGroup mem' with rfl | rfl <;> first | rfl | cases same

/-- Every step ends with the same exit code. -/
theorem endsOf_eq (n : Name) : endsOf n (History.ends (s.past (ys ++ xs))).reverse =
    endsOf n (History.ends (s.past (ys' ++ xs))).reverse := by
  have recorded := (s.sound (ys ++ xs)).recorded
  have recorded' := (s.sound (ys' ++ xs)).recorded
  have same := a.status_eq b n
  cases ended : ((s.after (ys ++ xs)).status n).isTerminal with
  | false =>
    rw [recorded.endsOf_eq_nil ended, recorded'.endsOf_eq_nil (by rw [← same, ended])]
  | true =>
    obtain ⟨code, ends, -⟩ := recorded.endsOf_of_isTerminal ended
    obtain ⟨code', ends', -⟩ := recorded'.endsOf_of_isTerminal (n := n) (by rw [← same, ended])
    rw [ends, ends', a.code_eq b (mem_of_endsOf ends) (mem_of_endsOf ends')]

/-- A step that is announced one way is announced the other way. -/
theorem announced_of_announced
    (announced : Announced s.flow (s.after (ys ++ xs)) (s.past (ys ++ xs)) n) :
    Announced s.flow (s.after (ys' ++ xs)) (s.past (ys' ++ xs)) n := by
  have sound := s.sound (ys ++ xs)
  have known : (s.after (ys ++ xs)).status n ≠ .waiting → n ∈ s.flow.names := fun left =>
    Flow.contains_iff_mem_names.1 (sound.orderly.contains_of_status left)
  by_cases isGroup : s.flow.isGroup n = true
  · rw [announced_of_group isGroup] at announced
    exact (s.sound (ys' ++ xs)).orderly.announced_of_group isGroup
      (b.isTerminal (known announced.1))
  · rw [announced_of_other isGroup] at announced ⊢
    rcases announced with admitted | ⟨skip, done⟩
    · exact .inl (admitted_append (admitted_of_stopped a.stopped ys admitted) ys')
    · have hn := known (sound.recorded.status_ne_waiting skip)
      have skip' := (b.verdict_eq_skip_iff hn).2 ((a.verdict_eq_skip_iff hn).1 skip)
      have isLeaf := Flow.isLeaf_of_not_isGroup (Flow.contains_iff_mem_names.2 hn)
        (Bool.eq_false_of_not_eq_true isGroup)
      -- its worker is done by now
      have sound' := s.sound (ys' ++ xs)
      obtain ⟨stage, here⟩ :=
        Option.isSome_iff_exists.1 ((sound'.posted.staged n).2 ⟨isLeaf, .inr skip'⟩)
      have done := sound'.orderly.done_of_isTerminal (b.isTerminal hn) here
      exact .inr ⟨skip', by rw [here, done]⟩

/-- **The same is told of every step.** -/
theorem told_eq (n : Name) : (History.told (s.past (ys ++ xs))).filter (·.step = n) =
    (History.told (s.past (ys' ++ xs))).filter (·.step = n) := by
  have tale : ∀ zs, (s.after zs).isIdle = true →
      ((History.told (s.past zs)).filter (·.step = n)).reverse =
        (if Announced s.flow (s.after zs) (s.past zs) n then [.started n] else []) ++
          (s.emitted n zs).map (.output n) ++ endsOf n (History.ends (s.past zs)).reverse := by
    intro zs idle
    rw [← (s.tale n zs).told, tidings, Sound.agenda_of_isIdle idle, toTell_nil, List.append_nil,
      List.filter_reverse]
  have announced : Announced s.flow (s.after (ys ++ xs)) (s.past (ys ++ xs)) n ↔
      Announced s.flow (s.after (ys' ++ xs)) (s.past (ys' ++ xs)) n :=
    ⟨a.announced_of_announced b, b.announced_of_announced a⟩
  rw [← List.reverse_inj, tale _ a.idle, tale _ b.idle, a.still.emitted, b.still.emitted,
    a.endsOf_eq b]
  simp only [announced]

omit b

/-- A run that has wound down goes on winding down. -/
theorem append {zs : List Choice} (idle : (s.after (zs ++ (ys ++ xs))).isIdle = true) :
    s.WindsDown xs (zs ++ ys) where
  stopped := a.stopped
  clear := a.clear
  still := a.still.append (.of_not_isLive a.stopped_after a.not_isLive zs)
  idle := by
    rw [List.append_assoc]
    exact idle

/-- Nothing is told any more in a run that has wound down. -/
theorem told_append {zs : List Choice} (idle : (s.after (zs ++ (ys ++ xs))).isIdle = true) :
    History.told (s.past (zs ++ (ys ++ xs))) = History.told (s.past (ys ++ xs)) := by
  obtain ⟨new, told⟩ := (s.past_isSuffix (ys ++ xs) zs).filterMap Moment.told?
  have told : History.told (s.past (zs ++ (ys ++ xs))) =
    new ++ History.told (s.past (ys ++ xs)) := told.symm
  suffices new = [] by rw [told, this, List.nil_append]
  rw [List.eq_nil_iff_forall_not_mem]
  intro e mem
  have same := a.told_eq (a.append idle) e.step
  rw [List.append_assoc, told, List.filter_append, eq_comm,
    List.append_left_eq_self] at same
  have mem : e ∈ new.filter (·.step = e.step) := List.mem_filter.2 ⟨mem, by simp⟩
  rw [same] at mem
  cases mem

end WindsDown

end Setup

end StepFlow
