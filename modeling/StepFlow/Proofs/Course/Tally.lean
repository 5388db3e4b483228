import StepFlow.Proofs.Course.Record

/-! # The tally of a run

A group counts the children of it that have not ended and the run counts the steps that have not.
Both are late: the end of a step is counted after those who wait for it were evaluated, so what is
counted is the steps that have not ended and the counts that are still on the agenda.

Main statements: `Counted` is the invariant, and `Counted.change` says that every change keeps
it. -/

namespace StepFlow

open Call

/-- How many of some steps have not ended. -/
def Moment.unfinished (m : Moment) (l : List Name) : Nat :=
  l.countP fun n => !(m.status n).isTerminal

/-- A moment is **counted** when the groups and the run have counted the steps that have ended, but
for the counts that are still on the agenda. -/
structure Counted (f : Flow) (m : Moment) : Prop where
  /-- Exactly the groups have a progress. -/
  progress : ∀ g, (m.run.progress.get? g).isSome = f.isGroup g
  /-- What is pending of a group. -/
  pending : ∀ g p, m.run.progress.get? g = some p →
    p.pending = m.unfinished (f.childrenOf g) + m.weight (counts g)
  /-- What remains of the run. -/
  remaining : m.run.remaining = m.unfinished f.names + m.weight countsDown
  /-- All children of a group that has ended have ended. -/
  ended_child : ∀ n g, f.groupOf? n = some g → (m.status g).isTerminal = true →
    (m.status n).isTerminal = true
  /-- A group in progress of which nothing is pending is about to be closed. -/
  closes : ∀ g, m.run.closing? g ≠ none → .close g ∈ m.agenda ∨ 0 < m.weight (covers g)

/-- One element that no longer counts lowers the count by one. -/
private theorem countP_of_update {l : List Name} (nodup : l.Nodup) {p q : Name → Bool} {n : Name}
    (before : p n = true) (now : q n = false) (same : ∀ k, k ≠ n → q k = p k) :
    l.countP p = l.countP q + if n ∈ l then 1 else 0 := by
  induction l with
  | nil => rfl
  | cons k l ih =>
    obtain ⟨fresh, nodup⟩ := List.nodup_cons.1 nodup
    rw [List.countP_cons, List.countP_cons, ih nodup]
    by_cases here : k = n
    · -- the element occurs once, so the rest of the list counts the same
      subst here
      simp [before, now, fresh]
    · rw [same k here]
      simp only [List.mem_cons, Ne.symm here, false_or]
      omega

namespace Coordinator

variable {c d : Coordinator} {g : Name}

theorem closing?_ne_none : c.closing? g ≠ none ↔
    c.status g = .inProgress ∧ ∃ p, c.progress.get? g = some p ∧ p.pending = 0 := by
  unfold closing?
  cases c.progress.get? g with
  | none => simp
  | some p =>
    simp only [Option.bind_some, Option.some.injEq, exists_eq_left']
    split <;> rename_i h <;> simp [h]

/-- Whether a group would close depends on its status and on what is pending of it. -/
theorem closing?_ne_none_of_eq (status : d.status g = c.status g)
    (pending : (d.progress.get? g).map Progress.pending = (c.progress.get? g).map Progress.pending)
    (h : d.closing? g ≠ none) : c.closing? g ≠ none := by
  rw [closing?_ne_none] at h ⊢
  obtain ⟨active, p, hp, zero⟩ := h
  rw [hp, Option.map_some] at pending
  obtain ⟨q, hq, same⟩ := Option.map_eq_some_iff.1 pending.symm
  exact ⟨by rw [← status, active], q, hq, by rw [same, zero]⟩

end Coordinator

namespace Counted

variable {f : Flow} {m m' : Moment} (con : f.Consistent) (o : Orderly f m) (k : Counted f m)

/-! ## Consequences -/

include k

theorem terminal_under {n g : Name} (under : f.Under n g) (h : (m.status g).isTerminal = true) :
    (m.status n).isTerminal = true := by
  induction under using Relation.TransGen.head_induction_on with
  | single direct => exact k.ended_child _ _ direct h
  | head direct _ ih => exact k.ended_child _ _ direct ih

/-- A group that can be closed has no child that has not ended and nothing left to count. -/
theorem of_closing? {g : Name} (h : m.run.closing? g ≠ none) :
    m.unfinished (f.childrenOf g) = 0 ∧ m.weight (counts g) = 0 := by
  obtain ⟨-, p, hp, zero⟩ := Coordinator.closing?_ne_none.1 h
  have := k.pending g p hp
  omega

include con in
theorem terminal_of_closing? {n g : Name} (h : m.run.closing? g ≠ none)
    (child : f.groupOf? n = some g) : (m.status n).isTerminal = true := by
  have none := (k.of_closing? h).1
  unfold Moment.unfinished at none
  rw [List.countP_eq_zero] at none
  simpa using none n (con.mem_childrenOf.2 child)

/-! ## Every change keeps the invariant -/

omit k in
include o in
/-- A step has ended after a change in which nothing ends exactly if it had ended before. -/
theorem isTerminal_stays (con : f.Consistent) (c : Change m m') (h : m.ended? = none) (n : Name) :
    (m'.status n).isTerminal = (m.status n).isTerminal := by
  cases hv : m.verdict? n with
  | some v => rw [o.waiting_of_verdict? con hv, o.active_of_verdict? con c hv]; rfl
  | none => rw [o.status_stays con c hv fun code he => by rw [h] at he; cases he]

include con o in
/-- A change in which nothing ends and nothing is counted. -/
private theorem quiet (c : Change m m') (ended? : m.ended? = none)
    (progress : ∀ g, (m'.run.progress.get? g).map Progress.pending =
      (m.run.progress.get? g).map Progress.pending)
    (remaining : m'.run.remaining = m.run.remaining)
    (counts' : ∀ g, m'.weight (counts g) = m.weight (counts g))
    (countsDown' : m'.weight countsDown = m.weight countsDown)
    (closes' : ∀ g, m'.run.closing? g ≠ none → .close g ∈ m'.agenda ∨ 0 < m'.weight (covers g)) :
    Counted f m' := by
  have same := isTerminal_stays o con c ended?
  have unfinished : ∀ l, m'.unfinished l = m.unfinished l := fun l => by
    simp only [Moment.unfinished, same]
  exact
    { progress := fun g => by
        rw [← k.progress g, ← Option.isSome_map, progress g, Option.isSome_map]
      pending := fun g p hp => by
        have moved := progress g
        rw [hp, Option.map_some] at moved
        obtain ⟨q, hq, eq⟩ := Option.map_eq_some_iff.1 moved.symm
        rw [← eq, k.pending g q hq, unfinished, counts']
      remaining := by rw [remaining, k.remaining, unfinished, countsDown']
      ended_child := fun n g hg h => by
        rw [same] at h ⊢
        exact k.ended_child n g hg h
      closes := closes' }

include con o in
/-- A change in which a step leaves its waiting. -/
private theorem change_leave (c : Change m m') {s : Step} (extra : List Call) {rest : List Call}
    (agenda : m.agenda = .evaluate s.name :: rest) (agenda' : m'.agenda = extra ++ rest)
    (weightless : ∀ w, IsWeight w → (∀ g l, w (.skip g l) = 0) → total w extra = 0)
    (ended? : m.ended? = none) (progress : m'.run.progress = m.run.progress)
    (remaining : m'.run.remaining = m.run.remaining)
    (covers' : ∀ g, m.weight (covers g) ≤ m'.weight (covers g))
    (closes' : ∀ g, f.isGroup g = true → m'.status g ≠ m.status g →
      .close g ∈ m'.agenda ∨ 0 < m'.weight (covers g)) : Counted f m' := by
  have weight : ∀ w, IsWeight w → (∀ g l, w (.skip g l) = 0) → m'.weight w = m.weight w := by
    intro w hw skip
    rw [Moment.weight, Moment.weight, agenda, agenda', total_cons, total_append,
      weightless w hw skip, hw _ rfl]
  refine k.quiet con o c ended? (fun g => by rw [progress]) remaining
    (fun g => weight _ (isWeight_counts g) fun _ _ => rfl)
    (weight _ isWeight_countsDown fun _ _ => rfl) ?_
  intro g hg
  by_cases status : m'.status g = m.status g
  · rcases k.closes g (Coordinator.closing?_ne_none_of_eq status (by rw [progress]) hg) with h | h
    · rw [agenda, List.mem_cons] at h
      rcases h with h | h
      · cases h
      · exact .inl (by rw [agenda']; exact List.mem_append_right _ h)
    · exact .inr (h.trans_le (covers' g))
  · refine closes' g ?_ status
    obtain ⟨-, p, hp, -⟩ := Coordinator.closing?_ne_none.1 hg
    rw [← k.progress g, ← progress, hp]
    rfl

include con o in
/-- A change that keeps the steps and groups, and drops no end of a group that is due. -/
private theorem change_keep (c : Change m m') {gone : List Call} (extra : List Call)
    {rest : List Call}
    (agenda : m.agenda = gone ++ rest) (agenda' : m'.agenda = extra ++ rest)
    (spent : ∀ call ∈ gone, m.run.Spent call)
    (weightless : ∀ w, IsWeight w → (∀ n code, w (.complete n code) = 0) → total w extra = 0)
    (agrees : Coordinator.Agrees m.run m'.run) (ended? : m.ended? = none) : Counted f m' := by
  have weight : ∀ w, IsWeight w → (∀ n code, w (.complete n code) = 0) →
      m'.weight w = m.weight w := by
    intro w hw complete
    rw [Moment.weight, Moment.weight, agenda, agenda', total_append, total_append,
      weightless w hw complete,
      hw.total_eq_zero fun call hc => Coordinator.isWeightless_of_spent (spent call hc)]
  refine k.quiet con o c ended? (fun g => by rw [agrees.progress]) agrees.remaining
    (fun g => weight _ (isWeight_counts g) fun _ _ => rfl)
    (weight _ isWeight_countsDown fun _ _ => rfl) ?_
  intro g hg
  have due : m.run.closing? g ≠ none := Coordinator.closing?_ne_none_of_eq
    (by rw [Coordinator.status, Coordinator.status, agrees.statuses]) (by rw [agrees.progress]) hg
  rw [weight _ (isWeight_covers g) fun _ _ => rfl]
  refine (k.closes g due).imp_left fun h => ?_
  rw [agenda, List.mem_append] at h
  rw [agenda']
  rcases h with h | h
  · exact absurd (spent _ h) due
  · exact List.mem_append_right _ h

include con o in
private theorem change_mark (c : Change m m') {g : Name} {claimed : List Step} {rest : List Call}
    (agenda : m.agenda = .skip g claimed :: rest)
    (agenda' : m'.agenda = (m.run.skip g claimed).1 ++ rest)
    (statuses : m'.run.statuses = m.run.statuses)
    (progress : ∀ h, m'.run.progress.get? h =
      if h ∈ g :: (claimed.filter (·.isGroup)).map (·.name)
      then (m.run.progress.get? h).map fun p => { p with failed := true }
      else m.run.progress.get? h)
    (remaining : m'.run.remaining = m.run.remaining) (ended? : m.ended? = none) :
    Counted f m' := by
  obtain ⟨-, steps, -⟩ := o.skips g claimed (by rw [agenda]; exact List.mem_cons_self)
  have weight : ∀ w, IsWeight w → (∀ n code, w (.complete n code) = 0) →
      m.weight w = w (.skip g claimed) + m'.weight w := by
    intro w hw complete
    rw [Moment.weight, Moment.weight, agenda, agenda', total_cons, total_append,
      Orderly.total_skip_eq_zero hw complete]
    omega
  have pending : ∀ h, (m'.run.progress.get? h).map Progress.pending =
      (m.run.progress.get? h).map Progress.pending := by
    intro h
    rw [progress]
    split <;> cases m.run.progress.get? h <;> rfl
  refine k.quiet con o c ended? pending remaining ?_ ?_ ?_
  · intro h
    rw [weight _ (isWeight_counts h) fun _ _ => rfl]
    exact (Nat.zero_add _).symm
  · rw [weight _ isWeight_countsDown fun _ _ => rfl]
    exact (Nat.zero_add _).symm
  · intro h hh
    have due : m.run.closing? h ≠ none := Coordinator.closing?_ne_none_of_eq
      (by rw [Coordinator.status, Coordinator.status, statuses]) (pending h) hh
    rcases k.closes h due with close | covered
    · rw [agenda, List.mem_cons] at close
      rcases close with same | old
      · cases same
      · exact .inl (by rw [agenda']; exact List.mem_append_right _ old)
    · -- what this skip covered is closed now
      by_cases here : covers h (.skip g claimed) = 0
      · rw [weight _ (isWeight_covers h) fun _ _ => rfl, here, Nat.zero_add] at covered
        exact .inr covered
      · have isGroup : f.isGroup h = true := by
          obtain ⟨-, p, hp, -⟩ := Coordinator.closing?_ne_none.1 due
          rw [← k.progress h, hp]
          rfl
        refine .inl ?_
        rw [agenda']
        refine List.mem_append_left _ ?_
        simp only [Coordinator.skip, List.mem_append, List.mem_map, List.mem_filter,
          List.mem_singleton]
        by_cases same : g = h
        · exact .inr (by rw [same])
        · rw [covers, if_neg same, Nat.zero_add] at here
          obtain ⟨t, ht, rfl⟩ := List.mem_map.1 (List.count_pos_iff.1 (Nat.pos_of_ne_zero here))
          rw [Flow.isGroup_of_step? (steps t ht)] at isGroup
          exact .inl (.inr ⟨t, ⟨ht, isGroup⟩, rfl⟩)

include con o in
private theorem change_finish (c : Change m m') {n : Name} {code : Int} {call : Call}
    {rest : List Call} (agenda : m.agenda = call :: rest)
    (cause : call = .complete n code ∨ (call = .close n ∧ m.run.closing? n = some code))
    (agenda' : m'.agenda = m.run.propagation n code ++ rest)
    (progress : m'.run.progress = m.run.progress)
    (remaining : m'.run.remaining = m.run.remaining) (commit? : m.commit? = none)
    (ended? : m.ended? = some (n, code)) : Counted f m' := by
  obtain ⟨active, after⟩ := o.of_ended? c ended?
  have ended : (m'.status n).isTerminal = true := by
    rw [after]
    exact Status.isTerminal_ofExitCode code
  have stays : ∀ k, k ≠ n → m'.status k = m.status k := fun k hk =>
    o.status_stays con c (Moment.verdict?_of_none commit?) fun code' he => by
      rw [ended?, Option.some.injEq, Prod.mk.injEq] at he
      exact hk he.1.symm
  have unfinished : ∀ {l : List Name}, l.Nodup →
      m.unfinished l = m'.unfinished l + if n ∈ l then 1 else 0 := fun nodup =>
    countP_of_update nodup (by simp [active, Status.isTerminal]) (by simp [ended])
      fun k hk => by rw [stays k hk]
  have covers' := o.covers_of_finish agenda cause agenda'
  have counts' := o.counts_of_finish agenda cause agenda'
  have countsDown' : m'.weight countsDown = 1 + m.weight countsDown := by
    have := o.weight_of_finish agenda agenda' isWeight_countsDown
    rcases cause with rfl | ⟨rfl, -⟩ <;> cases hg : f.groupOf? n <;>
      simpa [hg, countsDown] using this
  have known := Flow.contains_iff_mem_names.1
    (o.contains_of_status (n := n) (by rw [active]; decide))
  exact
    { progress := fun g => by rw [progress, k.progress]
      pending := fun g p hp => by
        rw [progress] at hp
        rw [k.pending g p hp, unfinished (con.nodup_childrenOf g), counts']
        simp only [con.mem_childrenOf]
        omega
      remaining := by
        rw [remaining, k.remaining, unfinished con.nodup_names, if_pos known, countsDown']
        omega
      ended_child := fun j g hg h => by
        by_cases same : j = n
        · rw [same, ended]
        · rw [stays j same]
          by_cases group : g = n
          · -- a group ends when it is closed, and then nothing of it is pending
            subst group
            rcases cause with rfl | ⟨rfl, closing⟩
            · have leaf := (o.of_completes (n := g) (total_pos_of_mem
                (by rw [agenda]; exact List.mem_cons_self) (by simp [completes]))).1
              exact absurd leaf (Flow.not_isLeaf_of_isGroup (con.isGroup_of_groupOf? hg))
            · exact k.terminal_of_closing? con (by rw [closing]; exact fun h => by cases h) hg
          · rw [stays g group] at h
            exact k.ended_child j g hg h
      closes := fun g hg => by
        have different : g ≠ n := by
          rintro rfl
          have now : m'.status g = .inProgress := (Coordinator.closing?_ne_none.1 hg).1
          rw [now] at ended
          cases ended
        rw [covers']
        have due : m.run.closing? g ≠ none :=
          Coordinator.closing?_ne_none_of_eq (stays g different) (by rw [progress]) hg
        -- only the call that ends the step is gone, and it closes no other group
        refine (k.closes g due).imp_left fun h => ?_
        rw [agenda, List.mem_cons] at h
        rw [agenda']
        refine List.mem_append_right _ (h.resolve_left fun same => ?_)
        rcases cause with rfl | ⟨rfl, -⟩
        · cases same
        · cases same
          exact different rfl }

include con o in
private theorem change_count (c : Change m m') {g : Name} {code : Int} {rest : List Call}
    (agenda : m.agenda = .childFinished g code :: rest) (agenda' : m'.agenda = .close g :: rest)
    (statuses : m'.run.statuses = m.run.statuses)
    (progress : ∀ h, m'.run.progress.get? h =
      if h = g
      then (m.run.progress.get? h).map fun p =>
        { pending := p.pending - 1, failed := p.failed || code ≠ 0 }
      else m.run.progress.get? h)
    (remaining : m'.run.remaining = m.run.remaining) (ended? : m.ended? = none) :
    Counted f m' := by
  have same := isTerminal_stays o con c ended?
  have unfinished : ∀ l, m'.unfinished l = m.unfinished l := fun l => by
    simp only [Moment.unfinished, same]
  have weight : ∀ w, IsWeight w → m.weight w = w (.childFinished g code) + m'.weight w :=
    fun w hw => by
      rw [Moment.weight, Moment.weight, agenda, agenda', total_cons, total_cons, hw (.close g) rfl,
        Nat.zero_add]
  have counts' : ∀ h, m.weight (counts h) = (if g = h then 1 else 0) + m'.weight (counts h) :=
    fun h => weight _ (isWeight_counts h)
  exact
    { progress := fun h => by
        rw [← k.progress h, progress]
        split
        · rw [Option.isSome_map]
        · rfl
      pending := fun h p hp => by
        rw [progress] at hp
        rw [unfinished]
        by_cases here : h = g
        · -- the count goes from the agenda to the group, so their sum stays
          subst here
          rw [if_pos rfl] at hp
          obtain ⟨q, hq, rfl⟩ := Option.map_eq_some_iff.1 hp
          have before := k.pending h q hq
          rw [counts', if_pos rfl] at before
          simp only
          omega
        · rw [if_neg here] at hp
          rw [k.pending h p hp, counts', if_neg (Ne.symm here), Nat.zero_add]
      remaining := by
        rw [remaining, k.remaining, unfinished, weight _ isWeight_countsDown]
        exact congrArg _ (Nat.zero_add _)
      ended_child := fun n h hg ended => by
        rw [same] at ended ⊢
        exact k.ended_child n h hg ended
      closes := fun h hh => by
        by_cases here : h = g
        · subst here
          exact .inl (by rw [agenda']; exact List.mem_cons_self)
        · have due : m.run.closing? h ≠ none := Coordinator.closing?_ne_none_of_eq
            (by rw [Coordinator.status, Coordinator.status, statuses])
            (by rw [progress, if_neg here]) hh
          have covers' : m'.weight (covers h) = m.weight (covers h) := by
            rw [weight _ (isWeight_covers h)]
            exact (Nat.zero_add _).symm
          rw [covers']
          refine (k.closes h due).imp_left fun close => ?_
          rw [agenda, List.mem_cons] at close
          rw [agenda']
          exact List.mem_cons_of_mem _ (close.resolve_left fun same => by cases same) }

include con o in
private theorem change_down (c : Change m m') {rest : List Call}
    (agenda : m.agenda = .countDown :: rest) (agenda' : m'.agenda = rest)
    (statuses : m'.run.statuses = m.run.statuses) (progress : m'.run.progress = m.run.progress)
    (remaining : m'.run.remaining = m.run.remaining - 1) (ended? : m.ended? = none) :
    Counted f m' := by
  have same := isTerminal_stays o con c ended?
  have unfinished : ∀ l, m'.unfinished l = m.unfinished l := fun l => by
    simp only [Moment.unfinished, same]
  have weight : ∀ w : Call → Nat, m.weight w = w .countDown + m'.weight w := fun w => by
    rw [Moment.weight, Moment.weight, agenda, agenda', total_cons]
  exact
    { progress := fun g => by rw [progress, k.progress]
      pending := fun g p hp => by
        rw [progress] at hp
        rw [k.pending g p hp, unfinished, weight]
        exact congrArg _ (Nat.zero_add _)
      -- the call that counts down leaves the agenda as the number goes down
      remaining := by
        rw [remaining, k.remaining, unfinished, weight]
        simp only [countsDown]
        omega
      ended_child := fun n g hg h => by
        rw [same] at h ⊢
        exact k.ended_child n g hg h
      closes := fun g hg => by
        have due : m.run.closing? g ≠ none := Coordinator.closing?_ne_none_of_eq
          (by rw [Coordinator.status, Coordinator.status, statuses]) (by rw [progress]) hg
        refine (k.closes g due).imp (fun close => ?_) fun covered => ?_
        · rw [agenda, List.mem_cons] at close
          rw [agenda']
          exact close.resolve_left fun same => by cases same
        · rw [weight] at covered
          simpa [covers] using covered }

include con o in
/-- **Every change keeps a moment counted.** -/
theorem change (c : Change m m') : Counted f m' := by
  have c' := c
  cases c with
  | @idle _ extra _ agenda agenda' spent light agrees _ _ ended? =>
    exact k.change_keep con o c' extra agenda agenda' spent (fun w hw _ => hw.total_light light)
      agrees ended?
  | @handOver gone extra rest n code agenda agenda' spent light agrees _ _ _ ended? =>
    refine k.change_keep con o c' (extra ++ [.complete n code]) agenda
      (by rw [agenda', List.append_assoc]; rfl) spent (fun w hw complete => ?_) agrees ended?
    rw [total_append, hw.total_light light, total_cons, complete]
    rfl
  | leaf agenda agenda' found isLeaf _ _ _ statuses progress remaining _ _ ended? =>
    rw [o.flow] at found
    refine k.change_leave con o c' [] agenda agenda' (fun _ _ _ => rfl) ended? progress
      remaining (fun g => ?_) fun g isGroup moved => ?_
    · rw [Moment.weight, Moment.weight, agenda, agenda', total_cons]
      exact Nat.le_of_eq (Nat.zero_add _)
    · -- only the leaf itself has moved
      rw [o.status_set (Flow.contains_of_step? found) statuses] at moved
      split at moved
      · rename_i same
        rw [← same, Flow.isGroup_of_step? found, isLeaf] at isGroup
        cases isGroup
      · exact absurd rfl moved
  | @group s rest agenda agenda' found _ _ _ _ statuses progress remaining _ _ ended? =>
    rw [o.flow] at found
    have weightless : ∀ w, IsWeight w → total w (.notify (.started s.name) ::
        (m.run.flow.rootsIn s.name).map (fun r => Call.evaluate r.name) ++ [.close s.name]) =
          0 := by
      intro w hw
      apply hw.total_eq_zero
      intro call hc
      rw [List.cons_append, List.mem_cons, List.mem_append, List.mem_map, List.mem_singleton] at hc
      rcases hc with rfl | ⟨r, -, rfl⟩ | rfl <;> rfl
    have split : m'.agenda = (.notify (.started s.name) ::
        (m.run.flow.rootsIn s.name).map (fun r => Call.evaluate r.name) ++ [.close s.name]) ++
          rest := by
      rw [agenda']
      simp
    refine k.change_leave con o c' _ agenda split (fun w hw _ => weightless w hw) ended? progress
      remaining (fun g => ?_) fun g _ moved => ?_
    · rw [Moment.weight, Moment.weight, agenda, split, total_cons, total_append,
        weightless _ (isWeight_covers g)]
      exact Nat.le_refl _
    · rw [o.status_set (Flow.contains_of_step? found) statuses] at moved
      split at moved
      · -- the group that has moved is closed by the last of its own calls
        rename_i same
        subst same
        exact .inl (by rw [agenda']; simp)
      · exact absurd rfl moved
  | @skip s claimed rest agenda agenda' _ _ _ _ _ _ _ _ _ status progress remaining _ _ ended? =>
    have covers' : ∀ g, m'.weight (covers g) =
        covers g (.skip s.name claimed) + m.weight (covers g) := fun g => by
      rw [Moment.weight, Moment.weight, agenda, agenda', total_cons, total_cons, total_cons]
      simp only [covers]
      omega
    refine k.change_leave con o c' [.notify (.started s.name), .skip s.name claimed]
      agenda agenda' (fun w hw skip => ?_) ended? progress remaining (fun g => ?_)
      fun g _ moved => ?_
    · rw [total_cons, total_cons, hw (.notify _) rfl, skip]
      rfl
    · rw [covers']
      exact Nat.le_add_left _ _
    · rw [status] at moved
      split at moved
      · -- what has moved is covered by the skip
        rename_i taken
        rw [covers', covers]
        rcases taken with same | inside
        · rw [if_pos same]
          exact .inr (by omega)
        · have := List.count_pos_iff.2 inside
          exact .inr (by omega)
      · exact absurd rfl moved
  | mark agenda agenda' _ statuses progress remaining _ _ ended? =>
    exact k.change_mark con o c' agenda agenda' statuses progress remaining ended?
  | finish agenda cause agenda' _ _ progress remaining _ commit? ended? =>
    exact k.change_finish con o c' agenda cause agenda' progress remaining commit? ended?
  | count agenda agenda' _ statuses progress remaining _ _ ended? =>
    exact k.change_count con o c' agenda agenda' statuses progress remaining ended?
  | down agenda agenda' _ statuses progress remaining _ _ ended? =>
    exact k.change_down con o c' agenda agenda' statuses progress remaining ended?

end Counted

/-! ## The beginning -/

/-- The progress with which a run begins. -/
theorem Coordinator.get?_progress_initial {f : Flow} (nodup : f.names.Nodup) (workers : Nat)
    (registry : Registry) (g : Name) : (Coordinator.initial f workers registry).progress.get? g =
      if f.isGroup g then some { pending := (f.childrenOf g).length } else none := by
  have find : ∀ l : List Step, (l.map (·.name)).Nodup →
      Table.find? g ((l.filter (·.isGroup)).map fun s =>
          (s.name, ({ pending := s.children.length } : Progress))) =
        (l.find? (·.name = g)).bind fun s =>
          if s.isGroup then some { pending := s.children.length } else none := by
    intro l hl
    induction l with
    | nil => rfl
    | cons s l ih =>
      obtain ⟨fresh, hl⟩ := List.nodup_cons.1 hl
      by_cases same : s.name = g
      · subst same
        cases group : s.isGroup with
        | true => simp [group, Table.find?]
        | false =>
          -- a leaf with the name is left out, and no group behind it has the name as well
          have absent : l.find? (·.name = s.name) = none := by
            rw [List.find?_eq_none]
            intro t ht
            have : t.name ≠ s.name := fun h => fresh (List.mem_map.2 ⟨t, ht, h⟩)
            simpa using this
          have rest := ih hl
          rw [absent] at rest
          simpa [group] using rest
      · cases group : s.isGroup <;> simp [group, Table.find?, same, ih hl]
  have found := find f.steps nodup
  rw [Coordinator.initial, Table.get?]
  simp only
  rw [found, Flow.isGroup, Flow.childrenOf, Flow.step?]
  cases f.steps.find? (·.name = g) with
  | none => rfl
  | some s => rfl

theorem Counted.initial {f : Flow} (con : f.Consistent) (workers : Nat) (registry : Registry) :
    Counted f (Moment.initial f workers registry) := by
  have all : ∀ l, (Moment.initial f workers registry).unfinished l = l.length := by
    intro l
    unfold Moment.unfinished
    rw [List.countP_eq_length]
    intro n _
    rw [Moment.status_initial]
    rfl
  exact
    { progress := fun g => by
        rw [Moment.initial, Coordinator.get?_progress_initial con.nodup_names]
        cases f.isGroup g <;> rfl
      pending := fun g p hp => by
        rw [Moment.initial, Coordinator.get?_progress_initial con.nodup_names] at hp
        split at hp
        · cases hp
          rw [all]
          rfl
        · cases hp
      remaining := by
        rw [all, Flow.names, List.length_map]
        rfl
      ended_child := fun n g _ h => by
        rw [Moment.status_initial] at h
        cases h
      closes := fun g hg => by
        have active : (Moment.initial f workers registry).status g = .inProgress :=
          (Coordinator.closing?_ne_none.1 hg).1
        rw [Moment.status_initial] at active
        cases active }

end StepFlow
