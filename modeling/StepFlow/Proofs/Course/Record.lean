import StepFlow.Proofs.Course.Schedule

/-! # The record of a run

What the history of a run says about a step, and how it agrees with the status of the step. A step
leaves its waiting with a verdict, once, and it ends with an exit code, once; between two moves
nothing else happens to its status.

Main statements: `Orderly.status_stays`, that a step which neither gets a verdict nor ends keeps its
status, and `Recorded.change`, that every move is recorded. -/

namespace StepFlow

/-! ## Commits -/

section Commits

variable {m : Moment} {n k : Name} {d : Directive}

/-- A move commits a step when it evaluates the step and the decision rule has decided. -/
theorem Moment.commit?_eq_some : m.commit? = some (n, d) ↔
    d ≠ .noop ∧ ∃ s rest, m.agenda = .evaluate n :: rest ∧ m.run.flow.step? n = some s ∧
      m.run.directive s = d := by
  unfold Moment.commit?
  constructor
  · intro h
    split at h
    · rename_i k rest agenda
      cases hs : m.run.flow.step? k with
      | none => simp [hs] at h
      | some s =>
        simp only [hs] at h
        split at h
        · cases h
        · rename_i decided
          cases h
          exact ⟨decided, s, rest, agenda, hs, rfl⟩
    · cases h
  · rintro ⟨decided, s, rest, agenda, found, rfl⟩
    simp only [agenda, found, if_neg decided]

/-- The verdict of a commit. -/
def Directive.verdict? : Directive → Option Verdict
  | .noop => none
  | .run => some .run
  | .skip => some .skip

theorem Moment.verdict?_of_none (h : m.commit? = none) : m.verdict? n = none := by
  simp only [Moment.verdict?, h]

/-- The step that is committed gets the verdict of the commit. -/
theorem Moment.verdict?_self (h : m.commit? = some (n, d)) : m.verdict? n = d.verdict? := by
  cases d <;> simp [Moment.verdict?, h, Directive.verdict?]

/-- A step that gets a verdict to run or to be skipped is the one that is committed. -/
theorem Moment.commit?_of_run (h : m.verdict? n = some .run) : m.commit? = some (n, .run) := by
  unfold Moment.verdict? at h
  split at h
  · rename_i k hk
    split at h
    · rename_i same
      rw [hk, same]
    · cases h
  · split at h
    · cases h
    · split at h <;> cases h
  · cases h

theorem Moment.commit?_of_skip (h : m.verdict? n = some .skip) : m.commit? = some (n, .skip) := by
  unfold Moment.verdict? at h
  split at h
  · split at h <;> cases h
  · rename_i k hk
    split at h
    · rename_i same
      rw [hk, same]
    · split at h <;> cases h
  · cases h

/-- A step that is claimed lies below the group that is committed to be skipped. -/
theorem Moment.commit?_of_claim (h : m.verdict? n = some .claim) :
    ∃ g, m.commit? = some (g, .skip) ∧ g ≠ n ∧ n ∈ (m.run.flow.below g).map (·.name) := by
  unfold Moment.verdict? at h
  split at h
  · split at h <;> cases h
  · rename_i k hk
    split at h
    · cases h
    · rename_i different
      split at h
      · rename_i below
        exact ⟨k, hk, different, below⟩
      · cases h
  · cases h

/-- What lies below a group that is committed to be skipped is claimed. -/
theorem Moment.verdict?_of_below (h : m.commit? = some (k, .skip)) (different : k ≠ n)
    (below : n ∈ (m.run.flow.below k).map (·.name)) : m.verdict? n = some .claim := by
  simp only [Moment.verdict?, h, if_neg different, if_pos below]

end Commits

/-! ## Ends -/

/-- A move that propagates the end of a step completes a leaf or closes a group. -/
theorem Change.finish_of_ended? {m m' : Moment} (c : Change m m') {n : Name} {code : Int}
    (h : m.ended? = some (n, code)) : ∃ call rest, m.agenda = call :: rest ∧
      (call = .complete n code ∨ (call = .close n ∧ m.run.closing? n = some code)) ∧
      m'.agenda = m.run.propagation n code ++ rest ∧
      m'.run.statuses = m.run.statuses.set n (.ofExitCode code) ∧ m.commit? = none := by
  cases c with
  | finish agenda cause agenda' _ statuses _ _ _ commit? ended? =>
    rw [h] at ended?
    cases ended?
    exact ⟨_, _, agenda, cause, agenda', statuses, commit?⟩
  | idle _ _ _ _ _ _ _ ended? => rw [h] at ended?; cases ended?
  | handOver _ _ _ _ _ _ _ _ ended? => rw [h] at ended?; cases ended?
  | leaf _ _ _ _ _ _ _ _ _ _ _ _ ended? => rw [h] at ended?; cases ended?
  | group _ _ _ _ _ _ _ _ _ _ _ _ ended? => rw [h] at ended?; cases ended?
  | skip _ _ _ _ _ _ _ _ _ _ _ _ _ _ _ _ ended? => rw [h] at ended?; cases ended?
  | mark _ _ _ _ _ _ _ _ ended? => rw [h] at ended?; cases ended?
  | count _ _ _ _ _ _ _ _ ended? => rw [h] at ended?; cases ended?
  | down _ _ _ _ _ _ _ _ ended? => rw [h] at ended?; cases ended?

namespace Orderly

variable {f : Flow} {m m' : Moment} (o : Orderly f m) (con : f.Consistent)

include o

/-- A step that is committed waits, is a step of the flow and has been decided. -/
theorem of_commit? {n : Name} {d : Directive} (h : m.commit? = some (n, d)) :
    m.status n = .waiting ∧ d ≠ .noop ∧ ∃ s, f.step? n = some s ∧ m.run.directive s = d := by
  obtain ⟨decided, s, rest, -, found, rfl⟩ := Moment.commit?_eq_some.1 h
  have name := Flow.step?_name found
  rw [o.flow] at found
  refine ⟨?_, decided, s, found, rfl⟩
  rw [← name]
  exact Coordinator.waiting_of_directive decided

/-- A step that is committed does not lie under itself. -/
theorem not_nested_of_commit? {n : Name} {d : Directive} (h : m.commit? = some (n, d)) :
    ¬ f.Under n n := by
  obtain ⟨decided, s, rest, -, found, rfl⟩ := Moment.commit?_eq_some.1 h
  have name := Flow.step?_name found
  subst name
  exact o.not_nested_of_commit found decided

/-- What a step waited for has ended when the step is committed. -/
theorem ended_of_commit? {n : Name} {d : Directive} (h : m.commit? = some (n, d))
    {e : Dependency} (he : e ∈ f.edgesFrom n) : (m.status e.dst).isTerminal = true := by
  obtain ⟨-, decided, s, found, rfl⟩ := o.of_commit? h
  refine Coordinator.ended_of_directive decided ?_
  rw [o.flow, Flow.step?_name found]
  exact he

/-- The targets of hard dependencies have succeeded when a step is committed to run. -/
theorem succeeded_of_commit_run {n : Name} (h : m.commit? = some (n, .run)) {e : Dependency}
    (he : e ∈ f.edgesFrom n) (hard : e.soft = false) : m.status e.dst = .succeeded := by
  obtain ⟨-, -, s, found, directive⟩ := o.of_commit? h
  refine (Coordinator.of_directive_eq_run directive).2 e ?_ hard
  rw [o.flow, Flow.step?_name found]
  exact he

/-- A step is committed to be skipped after a stop or because a hard dependency is broken. -/
theorem cause_of_commit_skip {n : Name} (h : m.commit? = some (n, .skip)) :
    m.run.stopped = true ∨
      ∃ e ∈ f.edgesFrom n, e.soft = false ∧ m.status e.dst = .failed := by
  obtain ⟨-, -, s, found, directive⟩ := o.of_commit? h
  have cause := Coordinator.of_directive_eq_skip directive
  rw [o.flow, Flow.step?_name found] at cause
  exact cause

include con

/-- A step is claimed exactly when it lies under a group that is committed to be skipped. -/
theorem verdict?_eq_claim_iff {n : Name} :
    m.verdict? n = some .claim ↔ ∃ g, f.Under n g ∧ m.verdict? g = some .skip := by
  have inside : ∀ g, ¬ f.Under g g →
      (n ∈ (m.run.flow.below g).map (·.name) ↔ f.Under n g) := by
    intro g free
    rw [o.flow, List.mem_map]
    constructor
    · rintro ⟨t, ht, rfl⟩
      exact ((con.mem_below free).1 ht).2
    · intro under
      obtain ⟨t, ht⟩ := Flow.contains_iff_exists.1 under.contains
      have name := Flow.step?_name ht
      subst name
      exact ⟨t, (con.mem_below free).2 ⟨ht, under⟩, rfl⟩
  constructor
  · intro h
    obtain ⟨g, hg, -, below⟩ := Moment.commit?_of_claim h
    exact ⟨g, (inside g (o.not_nested_of_commit? hg)).1 below, Moment.verdict?_self hg⟩
  · rintro ⟨g, under, hg⟩
    have free := o.not_nested_of_commit? (Moment.commit?_of_skip hg)
    have different : g ≠ n := by
      rintro rfl
      exact free under
    exact Moment.verdict?_of_below (Moment.commit?_of_skip hg) different ((inside g free).2 under)

/-! ## The status of a step after a move -/

/-- A step that gets a verdict waited. -/
theorem waiting_of_verdict? {n : Name} {v : Verdict} (h : m.verdict? n = some v) :
    m.status n = .waiting := by
  cases v with
  | run => exact (o.of_commit? (Moment.commit?_of_run h)).1
  | skip => exact (o.of_commit? (Moment.commit?_of_skip h)).1
  | claim =>
    obtain ⟨g, under, hg⟩ := (o.verdict?_eq_claim_iff con).1 h
    exact o.waiting_under under (o.of_commit? (Moment.commit?_of_skip hg)).1

/-- A step that gets a verdict is in progress after that. -/
theorem active_of_verdict? (h : Change m m') {n : Name} {v : Verdict}
    (hv : m.verdict? n = some v) : m'.status n = .inProgress := by
  have quiet : m.commit? ≠ none := fun none => by
    rw [Moment.verdict?_of_none none] at hv
    cases hv
  cases h with
  | @leaf s _ _ _ found isLeaf _ _ _ statuses _ _ _ commit? =>
    rw [o.flow] at found
    have status := o.status_set (Flow.contains_of_step? found) statuses
    have named : ∀ {k d}, m.commit? = some (k, d) → k = s.name := fun hk =>
      congrArg Prod.fst (Option.some.inj (hk.symm.trans commit?))
    suffices s.name = n by rw [status, if_pos this]
    cases v with
    | run => exact (named (Moment.commit?_of_run hv)).symm
    | skip => exact (named (Moment.commit?_of_skip hv)).symm
    | claim =>
      -- a leaf has nothing below it
      obtain ⟨g, under, hg⟩ := (o.verdict?_eq_claim_iff con).1 hv
      have group := con.isGroup_of_under under
      rw [named (Moment.commit?_of_skip hg), Flow.isGroup_of_step? found, isLeaf] at group
      cases group
  | group _ _ found _ _ _ _ statuses _ _ _ commit? =>
    rw [o.flow] at found
    rw [o.status_set (Flow.contains_of_step? found) statuses, if_pos]
    unfold Moment.verdict? at hv
    rw [commit?] at hv
    by_contra different
    simp [different] at hv
  | skip _ _ _ _ waits _ _ _ mem _ _ status _ _ _ commit? =>
    -- the skipped group and what was claimed for it are all that gets a verdict
    have free := o.not_nested_of_commit? commit?
    rw [status, if_pos]
    cases v with
    | run => rw [Moment.commit?_of_run hv] at commit?; cases commit?
    | skip => rw [Moment.commit?_of_skip hv] at commit?; cases commit?; exact .inl rfl
    | claim =>
      obtain ⟨g, under, hg⟩ := (o.verdict?_eq_claim_iff con).1 hv
      rw [Moment.commit?_of_skip hg] at commit?
      cases commit?
      exact .inr ((o.claimed_iff con free waits mem n).2 under)
  | idle _ _ _ _ _ _ commit? => exact absurd commit? quiet
  | handOver _ _ _ _ _ _ _ commit? => exact absurd commit? quiet
  | mark _ _ _ _ _ _ _ commit? => exact absurd commit? quiet
  | finish _ _ _ _ _ _ _ _ commit? => exact absurd commit? quiet
  | count _ _ _ _ _ _ _ commit? => exact absurd commit? quiet
  | down _ _ _ _ _ _ _ commit? => exact absurd commit? quiet

omit con in
/-- A step whose end is propagated was in progress and has ended with its exit code after that. -/
theorem of_ended? (h : Change m m') {n : Name} {code : Int} (he : m.ended? = some (n, code)) :
    m.status n = .inProgress ∧ m'.status n = .ofExitCode code := by
  obtain ⟨call, rest, agenda, cause, -, statuses, -⟩ := h.finish_of_ended? he
  have active := (o.of_cause agenda cause).1
  refine ⟨active, ?_⟩
  rw [o.status_set (o.contains_of_status (by rw [active]; decide)) statuses, if_pos rfl]

omit con in
/-- A step that ends is not covered. -/
theorem covers_of_ended? (h : Change m m') {n : Name} {code : Int}
    (he : m.ended? = some (n, code)) : m.weight (Call.covers n) = 0 := by
  obtain ⟨call, rest, agenda, cause, -⟩ := h.finish_of_ended? he
  exact (o.of_cause agenda cause).2

omit con in
/-- A group ends when it is closed. -/
theorem closing?_of_ended? (h : Change m m') {g : Name} {code : Int} (isGroup : f.isGroup g = true)
    (he : m.ended? = some (g, code)) : m.run.closing? g = some code := by
  obtain ⟨call, rest, agenda, rfl | ⟨-, closing⟩, -⟩ := h.finish_of_ended? he
  · -- only leaves are completed
    have leaf := (o.of_completes (n := g) (total_pos_of_mem
      (by rw [agenda]; exact List.mem_cons_self) (by simp [Call.completes]))).1
    exact absurd leaf (Flow.not_isLeaf_of_isGroup isGroup)
  · exact closing

/-- A step that neither gets a verdict nor ends keeps its status. -/
theorem status_stays (h : Change m m') {n : Name} (noVerdict : m.verdict? n = none)
    (noEnd : ∀ code, m.ended? ≠ some (n, code)) : m'.status n = m.status n := by
  have same : m'.run.statuses = m.run.statuses → m'.status n = m.status n := fun statuses => by
    rw [Moment.status, Moment.status, Coordinator.status, Coordinator.status, statuses]
  cases h with
  | idle _ _ _ _ agrees => exact same agrees.statuses
  | handOver _ _ _ _ agrees => exact same agrees.statuses
  | @leaf s _ _ _ found _ _ directive _ statuses _ _ _ commit? =>
    -- the leaf that is committed gets its verdict now, so it is not the step in question
    rw [o.flow] at found
    rw [o.status_set (Flow.contains_of_step? found) statuses, if_neg]
    rintro rfl
    rw [Moment.verdict?_self commit?] at noVerdict
    cases hd : m.run.directive s with
    | noop => exact directive hd
    | run => rw [hd] at noVerdict; cases noVerdict
    | skip => rw [hd] at noVerdict; cases noVerdict
  | group _ _ found _ _ _ _ statuses _ _ _ commit? =>
    rw [o.flow] at found
    rw [o.status_set (Flow.contains_of_step? found) statuses, if_neg]
    rintro rfl
    rw [Moment.verdict?_self commit?] at noVerdict
    cases noVerdict
  | skip _ _ _ _ waits _ _ _ mem _ _ status _ _ _ commit? =>
    -- the skipped group gets a verdict, and so does all that is claimed with it
    rw [status, if_neg]
    rintro (rfl | inside)
    · rw [Moment.verdict?_self commit?] at noVerdict
      cases noVerdict
    · have under := (o.claimed_iff con (o.not_nested_of_commit? commit?) waits mem n).1 inside
      rw [(o.verdict?_eq_claim_iff con).2 ⟨_, under, Moment.verdict?_self commit?⟩] at noVerdict
      cases noVerdict
  | mark _ _ _ statuses => exact same statuses
  | finish agenda cause _ _ statuses _ _ _ _ ended? =>
    have active := (o.of_cause agenda cause).1
    rw [o.status_set (o.contains_of_status (by rw [active]; decide)) statuses, if_neg]
    rintro rfl
    exact noEnd _ ended?
  | count _ _ _ statuses => exact same statuses
  | down _ _ _ statuses => exact same statuses

/-- **What a change does to a step**: it leaves its waiting with a verdict, it ends, or its status
stays. -/
theorem passes (c : Change m m') (n : Name) :
    (∃ v, m.verdict? n = some v ∧ m.status n = .waiting ∧ m'.status n = .inProgress) ∨
      (∃ code, m.ended? = some (n, code) ∧ m.verdict? n = none ∧ m.status n = .inProgress ∧
        m'.status n = .ofExitCode code) ∨
      (m.verdict? n = none ∧ (∀ code, m.ended? ≠ some (n, code)) ∧ m'.status n = m.status n) := by
  cases hv : m.verdict? n with
  | some v => exact .inl ⟨v, rfl, o.waiting_of_verdict? con hv, o.active_of_verdict? con c hv⟩
  | none =>
    by_cases ended : ∃ code, m.ended? = some (n, code)
    · obtain ⟨code, he⟩ := ended
      obtain ⟨before, now⟩ := o.of_ended? c he
      exact .inr (.inl ⟨code, he, rfl, before, now⟩)
    · have quiet := fun code he => ended ⟨code, he⟩
      exact .inr (.inr ⟨rfl, quiet, o.status_stays con c hv quiet⟩)

/-- What has ended keeps its status. -/
theorem terminal_stays (c : Change m m') {n : Name} (h : (m.status n).isTerminal = true) :
    m'.status n = m.status n := by
  rcases o.passes con c n with ⟨v, -, before, -⟩ | ⟨code, -, -, before, -⟩ | ⟨-, -, same⟩
  · rw [before] at h
    cases h
  · rw [before] at h
    cases h
  · exact same

/-- A step that is in progress after a change was so before, or got a verdict. -/
theorem active_before (c : Change m m') {n : Name} (h : m'.status n = .inProgress) :
    m.status n = .inProgress ∨ ∃ v, m.verdict? n = some v := by
  rcases o.passes con c n with ⟨v, hv, -, -⟩ | ⟨code, -, -, before, -⟩ | ⟨-, -, same⟩
  · exact .inr ⟨v, hv⟩
  · exact .inl before
  · exact .inl (same.symm.trans h)

/-- A step that has ended after a change had ended before, or its end was propagated. -/
theorem ended_before (c : Change m m') {n : Name} (h : (m'.status n).isTerminal = true) :
    m'.status n = m.status n ∨ ∃ code, m.ended? = some (n, code) := by
  rcases o.passes con c n with ⟨v, -, -, now⟩ | ⟨code, he, -, -, -⟩ | ⟨-, -, same⟩
  · rw [now] at h
    cases h
  · exact .inr ⟨code, he⟩
  · exact .inl same

/-- A step that waits after a change waited before. -/
theorem waiting_before (c : Change m m') {n : Name} (h : m'.status n = .waiting) :
    m.status n = .waiting := by
  rcases o.passes con c n with ⟨v, -, before, -⟩ | ⟨code, -, -, -, now⟩ | ⟨-, -, same⟩
  · exact before
  · exact absurd (now.symm.trans h) (Status.ofExitCode_ne_waiting code)
  · exact same.symm.trans h

end Orderly

/-! ## The history -/

namespace History

variable {m : Moment} {h : History} {n : Name} {v : Verdict}

/-- A verdict was given at a moment of the history. -/
theorem exists_of_verdict (hv : h.verdict n = some v) : ∃ k ∈ h, k.verdict? n = some v :=
  List.exists_of_findSome?_eq_some hv

/-- A step was **committed** with a directive. -/
def Committed (h : History) (n : Name) (d : Directive) : Prop := ∃ k ∈ h, k.commit? = some (n, d)

/-- How often a step was committed. -/
def commits (h : History) (n : Name) : Nat := h.countP fun m => m.commit?.map (·.1) = some n

/-- A step that is committed leaves its waiting. -/
theorem commits_le_departures (h : History) (n : Name) : h.commits n ≤ h.departures n := by
  apply List.countP_mono_left
  intro k _ hk
  obtain ⟨⟨_, d⟩, commit, rfl⟩ := Option.map_eq_some_iff.1 (of_decide_eq_true hk)
  have decided := (Moment.commit?_eq_some.1 commit).1
  rw [Moment.verdict?_self commit]
  cases d with
  | noop => exact absurd rfl decided
  | run => rfl
  | skip => rfl

theorem departures_cons (m : Moment) (h : History) (n : Name) :
    departures (m :: h) n = departures h n + if (m.verdict? n).isSome then 1 else 0 :=
  List.countP_cons ..

/-- Where only one verdict was given, it is the one that was given. -/
theorem verdict_of_mem {k : Moment} (once : h.departures n ≤ 1) (hk : k ∈ h)
    (hv : k.verdict? n = some v) : h.verdict n = some v := by
  induction h with
  | nil => cases hk
  | cons m h ih =>
    rw [departures_cons] at once
    rw [verdict_cons]
    rcases List.mem_cons.1 hk with rfl | before
    · rw [hv]
      rfl
    · -- the one verdict was given before, so the latest moment gave none
      have given : 0 < departures h n := List.countP_pos_iff.2 ⟨k, before, by simp [hv]⟩
      have none : m.verdict? n = none := by
        rw [← Option.not_isSome_iff_eq_none]
        intro again
        rw [if_pos again] at once
        omega
      rw [none]
      exact ih (by omega) before

/-- A step is **skipped** when it was committed to be skipped or claimed for that. -/
def Skipped (h : History) (n : Name) : Prop :=
  h.verdict n = some .skip ∨ h.verdict n = some .claim

instance : Decidable (h.Skipped n) :=
  inferInstanceAs (Decidable (h.verdict n = some .skip ∨ h.verdict n = some .claim))

/-- How often the end of a step was propagated. -/
def endings (h : History) (n : Name) : Nat := h.ends.countP (·.1 = n)

theorem endings_cons (m : Moment) (h : History) (n : Name) :
    endings (m :: h) n =
      endings h n + if m.ended?.map (·.1) = some n then 1 else 0 := by
  unfold endings
  rw [ends_cons, List.countP_append, Nat.add_comm]
  cases hm : m.ended? with
  | none => simp
  | some e => by_cases same : e.1 = n <;> simp [same]

end History

/-- The history **has recorded** what the steps went through up to a moment. -/
structure Recorded (f : Flow) (m : Moment) (h : History) : Prop where
  /-- A step has no verdict exactly while it waits. -/
  verdict_eq_none : ∀ n, h.verdict n = none ↔ m.status n = .waiting
  /-- A step has left its waiting once, unless it waits. -/
  departures : ∀ n, h.departures n = if m.status n = .waiting then 0 else 1
  /-- The end of a step was propagated once if the step has ended, and not before. -/
  endings : ∀ n, h.endings n = if (m.status n).isTerminal then 1 else 0
  /-- A step has ended with the exit code that was propagated. -/
  status_of_end : ∀ n code, (n, code) ∈ h.ends → m.status n = .ofExitCode code
  /-- A step was claimed exactly if it lies under a group that was committed to be skipped. -/
  claim_iff : ∀ n, h.verdict n = some .claim ↔ ∃ g, f.Under n g ∧ h.verdict g = some .skip
  /-- A step that was committed by itself lies in a group that was committed to run. -/
  parent : ∀ n g, h.verdict n = some .run ∨ h.verdict n = some .skip → f.groupOf? n = some g →
    h.verdict g = some .run

namespace Recorded

variable {f : Flow} {m m' : Moment} {h : History} {n g : Name}

/-! ### Consequences -/

section Consequences

variable (r : Recorded f m h)

include r

theorem status_ne_waiting {v : Verdict} (hv : h.verdict n = some v) : m.status n ≠ .waiting := by
  intro waits
  rw [(r.verdict_eq_none n).2 waits] at hv
  cases hv

theorem departures_le (n : Name) : h.departures n ≤ 1 := by
  rw [r.departures]
  split <;> decide

/-- A step that was committed has left its waiting. -/
theorem status_ne_waiting_of_committed {d : Directive} (committed : h.Committed n d) :
    m.status n ≠ .waiting := by
  obtain ⟨k, hk, commit⟩ := committed
  have once : 0 < h.commits n := List.countP_pos_iff.2 ⟨k, hk, by simp [commit]⟩
  intro waits
  have never := r.departures n
  rw [if_pos waits] at never
  have few := h.commits_le_departures n
  omega

/-- The verdict to run is that of a commit. -/
theorem verdict_eq_run_iff : h.verdict n = some .run ↔ h.Committed n .run := by
  constructor
  · intro hv
    obtain ⟨k, hk, now⟩ := History.exists_of_verdict hv
    exact ⟨k, hk, Moment.commit?_of_run now⟩
  · rintro ⟨k, hk, commit⟩
    exact History.verdict_of_mem (r.departures_le n) hk (Moment.verdict?_self commit)

/-- The verdict to be skipped is that of a commit. -/
theorem verdict_eq_skip_iff : h.verdict n = some .skip ↔ h.Committed n .skip := by
  constructor
  · intro hv
    obtain ⟨k, hk, now⟩ := History.exists_of_verdict hv
    exact ⟨k, hk, Moment.commit?_of_skip now⟩
  · rintro ⟨k, hk, commit⟩
    exact History.verdict_of_mem (r.departures_le n) hk (Moment.verdict?_self commit)

/-- A step is skipped by a commit of its own or of a group that it lies under. -/
theorem skipped_iff_committed :
    h.Skipped n ↔ h.Committed n .skip ∨ ∃ g, f.Under n g ∧ h.Committed g .skip := by
  unfold History.Skipped
  simp only [r.claim_iff, r.verdict_eq_skip_iff]

/-- What lies under a group that does not run was claimed. -/
theorem claim_of_under (under : f.Under n g) (hg : h.Skipped g) :
    h.verdict n = some .claim := by
  rw [r.claim_iff]
  rcases hg with skipped | claimed
  · exact ⟨g, under, skipped⟩
  · -- a group that was claimed lies under the one that was skipped
    obtain ⟨k, above, skipped⟩ := (r.claim_iff g).1 claimed
    exact ⟨k, under.trans above, skipped⟩

/-- A step was claimed exactly if its group was skipped. -/
theorem claim_iff_group : h.verdict n = some .claim ↔ ∃ g, f.groupOf? n = some g ∧ h.Skipped g := by
  constructor
  · intro claimed
    obtain ⟨k, under, skipped⟩ := (r.claim_iff n).1 claimed
    obtain ⟨g, direct, rfl | above⟩ := Flow.under_iff.1 under
    · exact ⟨g, direct, .inl skipped⟩
    · exact ⟨g, direct, .inr ((r.claim_iff g).2 ⟨k, above, skipped⟩)⟩
  · rintro ⟨g, direct, skipped⟩
    exact r.claim_of_under (.of_groupOf? direct) skipped

/-- What has ended did so with an exit code that was propagated. -/
theorem exists_end (ended : (m.status n).isTerminal = true) :
    ∃ code, (n, code) ∈ h.ends ∧ m.status n = .ofExitCode code := by
  have once := r.endings n
  rw [if_pos ended] at once
  obtain ⟨⟨k, code⟩, mem, same⟩ := List.countP_pos_iff.1
    (show 0 < History.endings h n by rw [once]; decide)
  have same : k = n := of_decide_eq_true same
  subst same
  exact ⟨code, mem, r.status_of_end k code mem⟩

/-- A group with a step under it that was not claimed and has left its waiting was run. -/
theorem run_of_under (under : f.Under n g)
    (hn : h.verdict n = some .run ∨ h.verdict n = some .skip) : h.verdict g = some .run := by
  induction under with
  | single direct => exact r.parent _ _ hn direct
  | tail _ direct ih => exact r.parent _ _ (.inl ih) direct

/-- A verdict is given once and for all. -/
theorem verdict_stays (o : Orderly f m) (con : f.Consistent) {v : Verdict}
    (hv : h.verdict n = some v) : History.verdict (m :: h) n = some v := by
  have none : m.verdict? n = none := by
    cases hm : m.verdict? n with
    | none => rfl
    | some w => exact absurd (o.waiting_of_verdict? con hm) (r.status_ne_waiting hv)
  rw [History.verdict_cons, none, hv]
  rfl

theorem verdict_cons_eq_some_iff (o : Orderly f m) (con : f.Consistent) {v : Verdict} :
    History.verdict (m :: h) n = some v ↔ m.verdict? n = some v ∨ h.verdict n = some v := by
  constructor
  · intro hv
    rw [History.verdict_cons] at hv
    cases hm : m.verdict? n with
    | none => rw [hm] at hv; exact .inr hv
    | some w => rw [hm] at hv; exact .inl hv
  · rintro (hm | hv)
    · rw [History.verdict_cons, hm]
      rfl
    · exact r.verdict_stays o con hv

theorem skipped_stays (o : Orderly f m) (con : f.Consistent) (hn : h.Skipped n) :
    History.Skipped (m :: h) n := hn.imp (r.verdict_stays o con) (r.verdict_stays o con)

/-- A step that has left its waiting runs or is skipped, and not both. -/
theorem skipped_iff (left : m.status n ≠ .waiting) :
    h.Skipped n ↔ h.verdict n ≠ some .run := by
  unfold History.Skipped
  cases hv : h.verdict n with
  | none => exact absurd ((r.verdict_eq_none n).1 hv) left
  | some v => cases v <;> simp

/-- A group in progress with a step under it that waits was run. -/
theorem run_of_waiting (waits : m.status n = .waiting) (under : f.Under n g)
    (active : m.status g ≠ .waiting) : h.verdict g = some .run := by
  cases hg : h.verdict g with
  | none => exact absurd ((r.verdict_eq_none g).1 hg) active
  | some v =>
    have unclaimed : h.verdict n ≠ some .claim := by
      rw [(r.verdict_eq_none n).2 waits]
      exact fun h => by cases h
    cases v with
    | run => rfl
    | skip => exact absurd (r.claim_of_under under (.inl hg)) unclaimed
    | claim => exact absurd (r.claim_of_under under (.inr hg)) unclaimed

end Consequences

/-! ### Every move is recorded -/

/-- **Every change is recorded.** -/
theorem change (con : f.Consistent) (o : Orderly f m) (r : Recorded f m h) (c : Change m m') :
    Recorded f m' (m :: h) where
  verdict_eq_none n := by
    rw [History.verdict_cons]
    rcases o.passes con c n with ⟨v, hv, -, now⟩ | ⟨code, -, hv, before, now⟩ | ⟨hv, -, same⟩
    · rw [hv, now]
      simp
    · rw [hv, Option.none_or, r.verdict_eq_none, before, now]
      exact iff_of_false (by decide) (Status.ofExitCode_ne_waiting code)
    · rw [hv, Option.none_or, r.verdict_eq_none, same]
  departures n := by
    rw [History.departures_cons, r.departures]
    rcases o.passes con c n with ⟨v, hv, before, now⟩ | ⟨code, -, hv, before, now⟩ | ⟨hv, -, same⟩
    · rw [hv, before, now]
      rfl
    · rw [hv, before, now, if_neg (Status.ofExitCode_ne_waiting code)]
      rfl
    · rw [hv, same]
      rfl
  endings n := by
    rw [History.endings_cons, r.endings]
    rcases o.passes con c n with ⟨v, -, before, now⟩ | ⟨code, he, -, before, now⟩ | ⟨-, he, same⟩
    · -- a step that leaves its waiting does not end in the same move
      have apart : m.ended?.map (·.1) ≠ some n := by
        intro ends
        obtain ⟨⟨_, code⟩, he, rfl⟩ := Option.map_eq_some_iff.1 ends
        rw [(o.of_ended? c he).1] at before
        cases before
      rw [if_neg apart, before, now]
      rfl
    · rw [he, before, now, Status.isTerminal_ofExitCode]
      simp [Status.isTerminal]
    · have apart : m.ended?.map (·.1) ≠ some n := by simpa using he
      rw [if_neg apart, same, Nat.add_zero]
  status_of_end n code hn := by
    rw [History.ends_cons, List.mem_append] at hn
    rcases hn with now | before
    · exact (o.of_ended? c (by simpa using now)).2
    · have status := r.status_of_end n code before
      rw [← status]
      exact o.terminal_stays con c (by rw [status]; exact Status.isTerminal_ofExitCode code)
  claim_iff n := by
    rw [r.verdict_cons_eq_some_iff o con, o.verdict?_eq_claim_iff con, r.claim_iff]
    constructor
    · rintro (⟨g, under, hg⟩ | ⟨g, under, hg⟩)
      · exact ⟨g, under, (r.verdict_cons_eq_some_iff o con).2 (.inl hg)⟩
      · exact ⟨g, under, (r.verdict_cons_eq_some_iff o con).2 (.inr hg)⟩
    · rintro ⟨g, under, hg⟩
      rcases (r.verdict_cons_eq_some_iff o con).1 hg with hg | hg
      · exact .inl ⟨g, under, hg⟩
      · exact .inr ⟨g, under, hg⟩
  parent n g hn hg := by
    apply r.verdict_stays o con
    -- the group of a step that is committed is in progress around a step that waits
    have committed : ∀ {d : Directive}, m.commit? = some (n, d) → h.verdict g = some .run := by
      intro d hc
      obtain ⟨waits, decided, s, found, hs⟩ := o.of_commit? hc
      rw [Flow.groupOf?_of_step? found] at hg
      have active := Coordinator.released_of_directive (by rw [hs]; exact decided) hg
      refine r.run_of_waiting waits (.of_groupOf? (by rw [Flow.groupOf?_of_step? found, hg])) ?_
      rw [show m.status g = .inProgress from active]
      decide
    rcases hn with hn | hn
    · rcases (r.verdict_cons_eq_some_iff o con).1 hn with now | before
      · exact committed (Moment.commit?_of_run now)
      · exact r.parent n g (.inl before) hg
    · rcases (r.verdict_cons_eq_some_iff o con).1 hn with now | before
      · exact committed (Moment.commit?_of_skip now)
      · exact r.parent n g (.inr before) hg

theorem initial (f : Flow) (workers : Nat) (registry : Registry) :
    Recorded f (Moment.initial f workers registry) [] where
  verdict_eq_none n := by simp [Moment.status_initial]
  departures n := by rw [Moment.status_initial]; rfl
  endings n := by rw [Moment.status_initial]; rfl
  status_of_end n code hn := by cases hn
  claim_iff n := by simp
  parent n g hn _ := by rcases hn with hn | hn <;> cases hn

end Recorded

end StepFlow
