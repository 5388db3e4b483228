import StepFlow.Proofs.Course.Cascade
import StepFlow.Proofs.Course.Order
import StepFlow.Proofs.Events
import StepFlow.Proofs.Invocation
import StepFlow.Proofs.Progress

/-! # Skipping a group

A group that is not to run is skipped as a whole. All that lies under it is claimed, from the inside
out, before the group itself leaves its waiting, so that at no time a step under a group that is
skipped can pass for one that waits for its turn. Then the leaves that were claimed end and the
groups close, and listeners and steps outside that hear of it may start or stop the run, or be
skipped in turn.

When the call returns that has found the group is to be skipped, the group and all that lies under
it have failed, once each, in an order that goes from the inside out. The reason is that while a
group waits nothing on the agenda bears on it or on what lies under it. So whatever the call makes
of these steps it has done when it returns to the rest of the agenda.

Main statement: `Setup.skip_of_group`. -/

namespace StepFlow

open Coordinator

/-! ## Claiming what lies under a group -/

/-- Some steps **are the claims** of a group, from a table of statuses on to another one. -/
structure Claims (f : Flow) (g : Name) (before : StatusTable) (claimed : List Step)
    (after : StatusTable) : Prop where
  /-- What lies under the group is claimed. -/
  mem : ∀ n, n ∈ claimed.map (·.name) ↔ f.Under n g
  /-- No step is claimed twice. -/
  nodup : (claimed.map (·.name)).Nodup
  /-- Steps are claimed before the groups that they lie under. -/
  insideOut : claimed.Pairwise fun a b => ¬ f.Under b.name a.name
  /-- What is claimed waited before, and is in progress after. -/
  under : ∀ n, f.Under n g → before.status n = .waiting ∧ after.status n = .inProgress
  /-- All other steps stay as they are. -/
  other : ∀ n, ¬ f.Under n g → after.status n = before.status n
  /-- While one step after the other is claimed the group waits, and nothing waits under a group
  that was claimed. -/
  amid : ∀ pre post, f.below g = pre ++ post → (claimAll pre before).2.status g = .waiting ∧
    ∀ n k, f.Under n k → f.Under k g → (claimAll pre before).2.status k ≠ .waiting →
      (claimAll pre before).2.status n ≠ .waiting

section Commit

variable {f : Flow} {m : Moment} {g : Name} (wf : f.WellFormed) (o : Orderly f m)

variable (waits : m.status g = .waiting)

include wf o waits

/-- Of the steps below a group that waits all are claimed that are looked at. -/
theorem Orderly.status_claimAll {steps : List Step} (sub : steps.Sublist (f.below g)) (n : Name) :
    (n ∈ (claimAll steps m.run.statuses).1.map (·.name) ↔ n ∈ steps.map (·.name)) ∧
      (claimAll steps m.run.statuses).2.status n =
        if n ∈ steps.map (·.name) then .inProgress else m.status n := by
  obtain ⟨-, -, mem, -, status⟩ := claimAll_spec steps m.run.statuses
  have all : n ∈ (claimAll steps m.run.statuses).1.map (·.name) ↔ n ∈ steps.map (·.name) := by
    refine (mem n).trans (and_iff_left_of_imp fun listed => ?_)
    have under := wf.mem_names_below.1 ((sub.map _).subset listed)
    obtain ⟨t, found⟩ := Flow.contains_iff_exists.1 under.contains
    rw [← o.flow] at found
    exact ⟨o.knows_of_step? found, o.waiting_under under waits⟩
  refine ⟨all, ?_⟩
  rw [status n]
  simp only [all]
  rfl

/-- **What lies under a group that waits is claimed** when all that is below it is looked at. -/
theorem Orderly.claims : Claims f g m.run.statuses (claimAll (f.below g) m.run.statuses).1
    (claimAll (f.below g) m.run.statuses).2 := by
  obtain ⟨sub, nodup, -⟩ := claimAll_spec (f.below g) m.run.statuses
  have status := o.status_claimAll wf waits (List.Sublist.refl (f.below g))
  refine ⟨fun n => ?_, nodup, (wf.pairwise_below g).sublist sub, fun n under => ?_,
    fun n out => ?_, fun pre post split => ?_⟩
  · exact (status n).1.trans wf.mem_names_below
  · refine ⟨o.waiting_under under waits, ?_⟩
    rw [(status n).2, if_pos (wf.mem_names_below.2 under)]
  · rw [(status n).2, if_neg fun listed => out (wf.mem_names_below.1 listed)]
    rfl
  · have now := o.status_claimAll wf waits
      (show pre.Sublist (f.below g) by rw [split]; exact List.sublist_append_left pre post)
    have order := wf.pairwise_below g
    rw [split, List.pairwise_append] at order
    constructor
    · rw [(now g).2, if_neg, waits]
      intro listed
      exact wf.not_under_self g (wf.mem_names_below.1
        (by rw [split, List.map_append]; exact List.mem_append_left _ listed))
    · intro n k inner outer claimed
      have first : k ∈ pre.map (·.name) := by
        by_contra unlisted
        rw [(now k).2, if_neg unlisted] at claimed
        exact claimed (o.waiting_under outer waits)
      -- what lies under a group that was claimed is listed before it, so it was claimed as well
      have listed := wf.mem_names_below.2 (inner.trans outer)
      rw [split, List.map_append, List.mem_append] at listed
      rcases listed with early | late
      · rw [(now n).2, if_pos early]
        decide
      · obtain ⟨a, ha, rfl⟩ := List.mem_map.1 first
        obtain ⟨b, hb, rfl⟩ := List.mem_map.1 late
        exact absurd inner (order.2.2 a ha b hb)

end Commit

/-- The call that finds a group is to be skipped claims what lies under it and then the group, and
changes nothing else. -/
theorem Orderly.evaluate_of_skip {f : Flow} {m : Moment} {g : Name} (o : Orderly f m) {t : Step}
    (found : m.run.flow.step? g = some t) (isGroup : t.isGroup = true)
    (skip : m.run.directive t = .skip) :
    m.run.evaluate g =
      ([.notify (.started g), .skip g (claimAll (f.below g) m.run.statuses).1],
        { m.run with
          statuses := (claimAll (f.below g) m.run.statuses).2.set g .inProgress }) := by
  have known := o.knows_of_step? found
  obtain rfl := Flow.step?_name found
  rw [Coordinator.evaluate_of_skip found known skip, commitSkip, if_pos isGroup, ← o.flow]
  rfl

/-! ## Agendas that are clear of a step -/

theorem Orderly.clear_of_waiting {f : Flow} {m : Moment} (o : Orderly f m) {n : Name}
    (waits : m.status n = .waiting) : m.Clear n := by
  obtain ⟨-, completes, covers, close, counts⟩ := o.free_of_waiting waits
  exact ⟨completes, covers, counts, close⟩

/-- What is clear of a step stays so when its first call is left out. -/
theorem Moment.Clear.of_cons {m m' : Moment} {n : Name} {call : Call} (clear : m.Clear n)
    (agenda : m.agenda = call :: m'.agenda) : m'.Clear n := by
  have lighter : ∀ w, m.weight w = 0 → m'.weight w = 0 := by
    intro w none
    rw [Moment.weight, agenda, total_cons] at none
    exact Nat.eq_zero_of_add_eq_zero_left none
  exact ⟨lighter _ clear.completes, lighter _ clear.covers, lighter _ clear.counts,
    fun mem => clear.close (by rw [agenda]; exact List.mem_cons_of_mem _ mem)⟩

/-! ## When the call returns -/

/-- A group **is swept** at a moment when it has failed with all that lies under it, and what was
told of these steps is in order. -/
structure Swept (f : Flow) (m : Moment) (h : History) (g : Name) : Prop where
  failed : ∀ n, n = g ∨ f.Under n g → m.status n = .failed
  /-- A group was announced and has ended, a leaf has ended, once and with exit code `1`. -/
  told : ∀ n, n = g ∨ f.Under n g → h.told.reverse.filter (·.step = n) =
    (if f.isGroup n then [.started n] else []) ++ [.completed n 1]
  /-- Outer groups were announced before inner ones. -/
  starts : ∀ n k, f.Under n k → (k = g ∨ f.Under k g) → f.isGroup n = true →
    [.started k, .started n].Sublist h.told.reverse
  /-- What lies under a group has ended before it. -/
  ends : ∀ n k, f.Under n k → (k = g ∨ f.Under k g) →
    [.completed n 1, .completed k 1].Sublist h.told.reverse

namespace Setup

section Return

variable (s : Setup) {xs ys : List Choice} {x : Choice} {g n : Name} {rest : List Call}
  (isGroup : s.flow.isGroup g = true) (commit : (s.after xs).commit? = some (g, .skip))

include commit

/-- A group that is to be skipped waits, and so does all that lies under it. -/
theorem waiting_of_skip (inside : n = g ∨ s.flow.Under n g) : (s.after xs).status n = .waiting := by
  have o := (s.sound xs).orderly
  obtain ⟨waits, -⟩ := o.of_commit? commit
  rcases inside with rfl | under
  · exact waits
  · exact o.waiting_under under waits

theorem verdict_of_skip : History.verdict (s.past (ys ++ x :: xs)) g = some .skip := by
  refine (s.sound _).recorded.verdict_eq_skip_iff.2 ⟨s.after xs, ?_, commit⟩
  exact Moment.mem_past_iff.2 ⟨x, ys, xs, rfl, rfl⟩

theorem claim_of_skip (under : s.flow.Under n g) :
    History.verdict (s.past (ys ++ x :: xs)) n = some .claim :=
  (s.sound _).recorded.claim_of_under under (.inl (s.verdict_of_skip commit))

theorem skipped_of_skip (inside : n = g ∨ s.flow.Under n g) :
    History.Skipped (s.past (ys ++ x :: xs)) n := by
  rcases inside with rfl | under
  · exact .inl (s.verdict_of_skip commit)
  · exact .inr (s.claim_of_skip commit under)

/-- From the commit on none of these steps waits. -/
theorem left_of_skip (inside : n = g ∨ s.flow.Under n g) :
    (s.after (ys ++ x :: xs)).status n ≠ .waiting := by
  have recorded := (s.sound (ys ++ x :: xs)).recorded
  rcases s.skipped_of_skip commit inside with hv | hv <;> exact recorded.status_ne_waiting hv

variable (agenda : (s.after xs).agenda = .evaluate g :: rest)
  (back : (s.after (ys ++ x :: xs)).agenda = rest)

include agenda back

/-- When the call returns nothing is left to be told of these steps. -/
theorem untold_of_skip (inside : n = g ∨ s.flow.Under n g) :
    (toTell (s.after (ys ++ x :: xs)).agenda).filter (·.step = n) = [] := by
  refine List.filter_eq_nil_iff.2 fun e mem about => ?_
  -- it would have been on the agenda when the step still waited
  have early : e ∈ tidings (s.after xs) (s.past xs) := by
    refine List.mem_append_right _ (mem_toTell.2 ?_)
    rw [agenda, ← back]
    exact List.mem_cons_of_mem _ (mem_toTell.1 mem)
  have out := (s.narrated xs).out_of_mem early
  rw [of_decide_eq_true about] at out
  exact out.1 (s.waiting_of_skip commit inside)

include isGroup

/-- When the call returns these steps have ended. -/
theorem terminal_of_skip (inside : n = g ∨ s.flow.Under n g) :
    ((s.after (ys ++ x :: xs)).status n).isTerminal = true := by
  have sound := s.sound (ys ++ x :: xs)
  refine sound.terminal_of_closed (P := fun n => n = g ∨ s.flow.Under n g) s.wellFormed
    (fun n k inside direct => ?_) (fun n inside => ?_) (fun n inside => ?_)
    (fun n inside isLeaf => ?_) inside
  · rcases inside with rfl | under
    · exact .inr (.of_groupOf? direct)
    · exact .inr ((Flow.Under.of_groupOf? direct).trans under)
  · -- while the step waited the agenda was clear of it, and what is left of it still is
    have clear := (s.sound xs).orderly.clear_of_waiting (s.waiting_of_skip commit inside)
    exact clear.of_cons (by rw [agenda, back])
  · exact s.left_of_skip commit inside
  · rcases inside with rfl | under
    · exact absurd isLeaf (Flow.not_isLeaf_of_isGroup isGroup)
    · -- a leaf that was claimed has no worker
      rw [Coordinator.works, Table.weightAt]
      cases ht : (s.after (ys ++ x :: xs)).run.stages.get? n with
      | none => rfl
      | some t =>
        rcases ((sound.posted.staged n).1 (by rw [ht]; rfl)).2 with hv | hv <;>
        · rw [s.claim_of_skip commit under] at hv
          cases hv

/-- When the call returns the groups among these steps have been announced, and no leaf has. -/
theorem announced_of_skip (inside : n = g ∨ s.flow.Under n g) :
    Announced s.flow (s.after (ys ++ x :: xs)) (s.past (ys ++ x :: xs)) n ↔
      s.flow.isGroup n = true := by
  have sound := s.sound (ys ++ x :: xs)
  have ended := s.terminal_of_skip isGroup commit agenda back inside
  cases group : s.flow.isGroup n with
  | true => exact iff_of_true (sound.orderly.announced_of_group group ended) rfl
  | false =>
    rcases inside with rfl | under
    · rw [isGroup] at group
      cases group
    · -- a leaf that was claimed is not announced
      have isLeaf := Flow.isLeaf_of_not_isGroup under.contains group
      refine iff_of_false ?_ (by decide)
      exact ((s.traced _).not_announced_iff_of_leaf sound.orderly sound.recorded sound.posted
        isLeaf ended).2 (.inl (s.claim_of_skip commit under))

/-- When the call returns these steps have failed and their story is told. -/
theorem story_of_skip (inside : n = g ∨ s.flow.Under n g) :
    (s.after (ys ++ x :: xs)).status n = .failed ∧
      (History.told (s.past (ys ++ x :: xs))).reverse.filter (·.step = n) =
        (if s.flow.isGroup n then [.started n] else []) ++ [.completed n 1] := by
  have sound := s.sound (ys ++ x :: xs)
  have tale := s.tale n (ys ++ x :: xs)
  have skipped : History.Skipped (s.past (ys ++ x :: xs)) n := s.skipped_of_skip commit inside
  obtain ⟨code, ends, status⟩ := sound.recorded.endsOf_of_isTerminal
    (s.terminal_of_skip isGroup commit agenda back inside)
  -- what is skipped ends with exit code one, and no executor has a line for it
  obtain ⟨last, mem, same⟩ := mem_endsOf.1 (ends ▸ List.mem_singleton_self _)
  cases same
  obtain rfl : code = 1 := (sound.spared (.inl skipped)).code code (List.mem_reverse.1 mem)
  have silent : s.emitted n (ys ++ x :: xs) = [] := by
    by_contra lines
    have run := sound.posted.executed n (tale.executed lines)
    rcases skipped with hv | hv <;>
    · rw [run] at hv
      cases hv
  have told := tale.told
  rw [tidings, List.filter_append, s.untold_of_skip commit agenda back inside, List.append_nil,
    silent, ends] at told
  refine ⟨status, told.trans ?_⟩
  simp only [s.announced_of_skip isGroup commit agenda back inside, List.map_nil,
    List.append_nil]

/-- **When the call returns the group is swept.** -/
theorem swept_of_skip :
    Swept s.flow (s.after (ys ++ x :: xs)) (s.past (ys ++ x :: xs)) g := by
  have story := fun n inside => s.story_of_skip (n := n) isGroup commit agenda back inside
  have under : ∀ {n k}, s.flow.Under n k → (k = g ∨ s.flow.Under k g) → s.flow.Under n g := by
    rintro n k inner (rfl | outer)
    · exact inner
    · exact inner.trans outer
  have ordered := s.ordered (ys ++ x :: xs)
  have early : (History.told (s.past (ys ++ x :: xs))).reverse <+:
      tidings (s.after (ys ++ x :: xs)) (s.past (ys ++ x :: xs)) := List.prefix_append _ _
  have mem : ∀ {n e}, (n = g ∨ s.flow.Under n g) →
      (e ∈ (if s.flow.isGroup n then [Event.started n] else []) ++ [.completed n 1]) →
      e ∈ (History.told (s.past (ys ++ x :: xs))).reverse := by
    intro n e inside told
    rw [← (story n inside).2] at told
    exact (List.mem_filter.1 told).1
  refine ⟨fun n inside => (story n inside).1, fun n inside => (story n inside).2,
    fun n k inner outer group => ?_, fun n k inner outer => ?_⟩
  · have started := mem (e := .started n) (.inr (under inner outer)) (by simp [group])
    obtain ⟨e, rfl, sub⟩ :=
      ((ordered.starts n k inner).of_isPrefix early).exists_sublist started rfl
    exact sub
  · have completed := mem (e := .completed k 1) outer (by simp)
    obtain ⟨e, ends, sub⟩ :=
      ((ordered.ends n k inner).of_isPrefix early).exists_sublist completed rfl
    cases e with
    | started | output => cases ends
    | completed j code =>
      cases ends
      -- the end of a step that is told is the one that its story ends with
      have told : .completed n code ∈
          (History.told (s.past (ys ++ x :: xs))).reverse.filter (·.step = n) :=
        List.mem_filter.2 ⟨sub.subset List.mem_cons_self, decide_eq_true rfl⟩
      rw [(story n (.inr (under inner outer))).2, List.mem_append, List.mem_singleton] at told
      rcases told with start | only
      · split at start <;> simp at start
      · rw [← only]
        exact sub

end Return

/-! ## Skips in a run -/

/-- **Skipping a group is complete and atomic.** Take a moment of a run at which a group is found to
be skipped, however deep groups are nested below it and whoever listens.

- The list of what is below a group is complete: below its children, and the children themselves.
- What lies under the group is claimed, from the inside out, and no other status changes. The group
  waits until that is done, and then it is all that changes.
- From then on nothing under the group waits.
- The call returns after a number of moves that no choice has an influence on, and then the group is
  swept. -/
theorem skip_of_group (s : Setup) (xs : List Choice) {g : Name} (isGroup : s.flow.isGroup g = true)
    (commit : (s.after xs).commit? = some (g, .skip)) :
    (∀ k, s.flow.below k = ((s.flow.childrenOf k).filterMap s.flow.step?).flatMap fun t =>
      (if t.isGroup then s.flow.below t.name else []) ++ [t]) ∧
    Claims s.flow g (s.after xs).run.statuses
      (claimAll (s.flow.below g) (s.after xs).run.statuses).1
      (claimAll (s.flow.below g) (s.after xs).run.statuses).2 ∧
    (∀ ys x n, s.flow.Under n g → (s.after (ys ++ x :: xs)).status n ≠ .waiting) ∧
    ∃ rest moves, (s.after xs).agenda = .evaluate g :: rest ∧
      (∀ x, s.after (x :: xs) =
        ⟨.notify (.started g) ::
            .skip g (claimAll (s.flow.below g) (s.after xs).run.statuses).1 :: rest,
          { (s.after xs).run with
            statuses := (claimAll (s.flow.below g) (s.after xs).run.statuses).2.set g
              .inProgress }⟩) ∧
      (s.after xs).ReturnsIn moves rest (settle [.evaluate g] (s.after xs).run) ∧
      ∀ ys, ys.length = moves → Swept s.flow (s.after (ys ++ xs)) (s.past (ys ++ xs)) g := by
  have o := (s.sound xs).orderly
  have waits := s.waiting_of_skip (n := g) commit (.inl rfl)
  obtain ⟨-, t, rest, agenda, found, skip⟩ := Moment.commit?_eq_some.1 commit
  have group : t.isGroup = true := by
    rw [o.flow] at found
    rw [← Flow.isGroup_of_step? found]
    exact isGroup
  obtain ⟨moves, returns⟩ := exists_returnsIn [.evaluate g] rest (s.after xs).run
  rw [List.singleton_append, ← agenda] at returns
  refine ⟨fun k => s.wellFormed.below_eq (s.wellFormed.not_under_self k),
    o.claims s.wellFormed waits, fun ys x n under => ?_,
    rest, moves, agenda, fun x => ?_, returns, fun ys all => ?_⟩
  · exact s.left_of_skip commit (.inr under)
  · rw [after_cons, Moment.next, agenda]
    simp only [perform, o.evaluate_of_skip found group skip]
    rfl
  · -- a call that has something to do takes a move, and the group is committed by the first one
    have pos := returns.pos (by rw [agenda]; exact List.cons_ne_self _ _)
    have back := returns.back ys all
    rcases List.eq_nil_or_concat ys with rfl | ⟨zs, x, rfl⟩
    · rw [← all] at pos
      cases pos
    · rw [List.concat_eq_append, List.append_assoc, List.singleton_append]
      refine s.swept_of_skip isGroup commit agenda ?_
      rw [after, Moment.after_append, Moment.after_cons]
      rw [List.concat_eq_append, Moment.after_append] at back
      exact congrArg Moment.agenda back

/-- A setup with a group in a group and an empty one in that, in which one listener stops the run
when it hears of the inner group and another one starts it again and again. -/
def nested : Setup where
  declarations := [.leaf "a" {}, .group "e", .group "g", .group "h", .leaf "x" {}, .leaf "y" {},
    .member "h" "g", .member "x" "g", .member "e" "h", .member "y" "h",
    .wait { src := "g", dst := "a" }]
  flow :=
    { steps := [⟨"a", none, .leaf {}⟩, ⟨"e", some "h", .group []⟩, ⟨"g", none, .group ["h", "x"]⟩,
        ⟨"h", some "g", .group ["e", "y"]⟩, ⟨"x", some "g", .leaf {}⟩, ⟨"y", some "h", .leaf {}⟩]
      dependencies := [⟨"g", "a", false⟩] }
  declared := by
    unfold Flow.declare Flow.assemble
    -- merge sort does not reduce, but what it sorts here is sorted already
    rw [List.mergeSort_of_pairwise (by decide)]
    decide +kernel
  workers := 1
  registry :=
    ⟨[{ listener := .reacting (fun e => e.step = "h") .stop },
      { listener := .reacting (fun _ => true) .start }]⟩
  coordinator := _
  created := rfl

/-- A run of the nested setup up to the moment at which the outer group is found to be skipped,
because the leaf that it waits for has failed. -/
def nestedRun : List Choice :=
  Choice.turns 5 (.worker "a") (.exit 1) ++ Choice.turns 1 (.executor "a") (.exit 1) ++
    Choice.turns 5 (.worker "a") (.exit 1) ++ [.request .start, .request .start]

/-- In the nested setup the leaf has failed, so the group is skipped with both groups in it. -/
theorem skip_of_group_nested :
    (nested.flow.isGroup "g" = true ∧ (nested.after nestedRun).commit? = some ("g", .skip)) ∧
      (claimAll (nested.flow.below "g") (nested.after nestedRun).run.statuses).1.map (·.name) =
        ["e", "y", "h", "x"] ∧
      nested.flow.Under "e" "g" ∧
      ∃ moves, ∀ ys : List Choice, ys.length = moves →
        Swept nested.flow (nested.after (ys ++ nestedRun)) (nested.past (ys ++ nestedRun)) "g" := by
  have isGroup : nested.flow.isGroup "g" = true := by decide +kernel
  have commit : (nested.after nestedRun).commit? = some ("g", .skip) := by decide +kernel
  have names : (claimAll (nested.flow.below "g") (nested.after nestedRun).run.statuses).1.map
      (·.name) = ["e", "y", "h", "x"] := by decide +kernel
  obtain ⟨-, claims, -, -, moves, -, -, -, swept⟩ := nested.skip_of_group nestedRun isGroup commit
  refine ⟨⟨isGroup, commit⟩, names, (claims.mem "e").1 ?_, moves, swept⟩
  rw [names]
  decide

end Setup

end StepFlow
