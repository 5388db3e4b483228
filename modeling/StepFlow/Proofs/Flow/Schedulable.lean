import StepFlow.Flow.Phase
import Mathlib.Data.Set.Basic
import Mathlib.Data.List.Nodup

/-! # Elimination in rounds

Taking away free phases round after round takes all of them away exactly when the phases can be
ranked. If it does, the number of rounds that a phase outlasts is its rank. If it does not, what it
leaves is **stuck**: every phase that is left must come after another one that is left, so none of
them can be ranked lowest.

Main statement: `Precedence.schedulable_iff`. -/

namespace StepFlow

namespace Precedence

variable {waiting : List (Phase × List Phase)} {p : Precedence}

/-! ## The rank of a phase -/

/-- A phase that is not free keeps its place among those that are left. -/
private theorem nodup_keys_withoutFree (nodup : (waiting.map (·.1)).Nodup) :
    ((withoutFree waiting).map (·.1)).Nodup := by
  unfold withoutFree
  rw [List.map_map]
  exact nodup.sublist (List.Sublist.map _ List.filter_sublist)

/-- A phase is left after a round when something must precede it, without what was taken away. -/
private theorem mem_withoutFree {e : Phase × List Phase} : e ∈ withoutFree waiting ↔
    ∃ e' ∈ waiting, e'.2 ≠ [] ∧ e = (e'.1, e'.2.filter (· ∉ free waiting)) := by
  simp only [withoutFree, List.mem_map, List.mem_filter, Bool.not_eq_true',
    List.isEmpty_eq_false_iff]
  constructor
  · rintro ⟨e', ⟨he', some_⟩, rfl⟩
    exact ⟨e', he', some_, rfl⟩
  · rintro ⟨e', he', some_, rfl⟩
    exact ⟨e', ⟨he', some_⟩, rfl⟩

/-- Something must precede a phase that is not free. -/
private theorem ne_nil_of_not_free {e : Phase × List Phase} (he : e ∈ waiting)
    (h : e.1 ∉ free waiting) : e.2 ≠ [] := by
  intro empty
  exact h (List.mem_map.2 ⟨e, List.mem_filter.2 ⟨he, by rw [empty]; rfl⟩, rfl⟩)

/-- Elimination that takes every phase away ranks each phase above its predecessors. -/
private theorem exists_rank_of_eliminates (nodup : (waiting.map (·.1)).Nodup)
    (h : eliminates waiting = true) :
    ∃ rank : Phase → Nat, ∀ e ∈ waiting, ∀ u ∈ e.2, rank u < rank e.1 := by
  -- the induction is on the rounds of the elimination
  induction waiting using eliminates.induct with
  | case1 waiting empty =>
    rw [List.isEmpty_iff] at empty
    subst empty
    exact ⟨fun _ => 0, by simp⟩
  | case2 waiting nonempty stuck =>
    -- nothing is free, so the elimination has failed
    rw [eliminates, if_neg nonempty, dif_pos stuck] at h
    cases h
  | case3 waiting nonempty moving ih =>
    rw [eliminates, if_neg nonempty, dif_neg moving] at h
    obtain ⟨rank, ranked⟩ := ih (nodup_keys_withoutFree nodup) h
    -- the free phases come first, all others one later than without them
    refine ⟨fun v => if v ∈ free waiting then 0 else rank v + 1, ?_⟩
    intro e he u hu
    -- a phase with a predecessor is not free, since no other entry has its name
    have occupied : e.1 ∉ free waiting := by
      intro inFree
      simp only [free, List.mem_map, List.mem_filter] at inFree
      obtain ⟨e', ⟨he', empty⟩, same⟩ := inFree
      rw [List.inj_on_of_nodup_map nodup he' he same, List.isEmpty_iff] at empty
      rw [empty] at hu
      cases hu
    by_cases gone : u ∈ free waiting
    · simp [gone, occupied]
    · -- neither of the two is free, so the rest of the elimination ranks them
      have left : (e.1, e.2.filter (· ∉ free waiting)) ∈ withoutFree waiting :=
        mem_withoutFree.2 ⟨e, he, List.ne_nil_of_mem hu, rfl⟩
      have lower : rank u < rank e.1 :=
        ranked _ left u (List.mem_filter.2 ⟨hu, by simpa using gone⟩)
      simp only [gone, occupied, if_false]
      omega

private theorem nodup_phases (nodup : p.names.Nodup) : p.phases.Nodup := by
  rw [phases, List.nodup_flatMap]
  refine ⟨fun n _ => by simp, ?_⟩
  refine nodup.imp ?_
  intro n m different
  simp only [Function.onFun, List.disjoint_cons_left, List.mem_cons, Phase.start.injEq,
    List.not_mem_nil, or_false, not_or, List.disjoint_nil_left, and_true]
  simp [different]

private theorem keys_waiting : (p.phases.map fun v => (v, p.before v)).map (·.1) = p.phases := by
  rw [List.map_map]
  exact List.map_id _

/-- **Phases that can be taken away in rounds can be ranked.** -/
theorem exists_ranking_of_schedulable (nodup : p.names.Nodup) (h : p.schedulable = true) :
    ∃ rank, p.Ranking rank := by
  have keys : ((p.phases.map fun v => (v, p.before v)).map (·.1)).Nodup := by
    rw [keys_waiting]
    exact nodup_phases nodup
  obtain ⟨rank, ranked⟩ := exists_rank_of_eliminates keys h
  refine ⟨rank, fun v hv u hu => ?_⟩
  exact ranked (v, p.before v) (List.mem_map.2 ⟨v, hv, rfl⟩) u hu

/-! ## Phases that are stuck -/

/-- Some phases are **stuck** when each of them must come after another one of them. -/
structure Stuck (p : Precedence) (blocked : Set Phase) : Prop where
  nonempty : blocked.Nonempty
  mem_phases : ∀ v ∈ blocked, v ∈ p.phases
  after : ∀ v ∈ blocked, ∃ u ∈ p.before v, u ∈ blocked

/-- Elimination that fails leaves phases each of which has a predecessor that is left. -/
private theorem exists_blocked_of_eliminates
    (closed : ∀ e ∈ waiting, ∀ u ∈ e.2, u ∈ waiting.map (·.1)) (h : eliminates waiting = false) :
    ∃ blocked : Set Phase, blocked.Nonempty ∧
      ∀ v ∈ blocked, ∃ e ∈ waiting, e.1 = v ∧ ∃ u ∈ e.2, u ∈ blocked := by
  induction waiting using eliminates.induct with
  | case1 waiting empty =>
    rw [eliminates, if_pos empty] at h
    cases h
  | case2 waiting nonempty stuck =>
    -- nothing is free, so everything that is left has a predecessor
    rw [List.isEmpty_iff] at nonempty
    obtain ⟨first, hfirst⟩ := List.exists_mem_of_ne_nil _ nonempty
    refine ⟨{v | v ∈ waiting.map (·.1)}, ⟨first.1, List.mem_map.2 ⟨first, hfirst, rfl⟩⟩, ?_⟩
    intro v hv
    obtain ⟨e, he, rfl⟩ := List.mem_map.1 hv
    have some_ : e.2 ≠ [] := ne_nil_of_not_free he (by rw [stuck]; exact List.not_mem_nil)
    obtain ⟨u, hu⟩ := List.exists_mem_of_ne_nil _ some_
    exact ⟨e, he, rfl, u, hu, closed e he u hu⟩
  | case3 waiting nonempty moving ih =>
    rw [eliminates, if_neg nonempty, dif_neg moving] at h
    have stillClosed : ∀ e ∈ withoutFree waiting, ∀ u ∈ e.2,
        u ∈ (withoutFree waiting).map (·.1) := by
      intro e he u hu
      obtain ⟨e', he', -, rfl⟩ := mem_withoutFree.1 he
      obtain ⟨hu, notFree⟩ := List.mem_filter.1 hu
      obtain ⟨k, hk, rfl⟩ := List.mem_map.1 (closed e' he' u hu)
      -- a predecessor that is left was not free itself
      have some_ : k.2 ≠ [] := ne_nil_of_not_free hk (by simpa using notFree)
      exact List.mem_map.2 ⟨_, mem_withoutFree.2 ⟨k, hk, some_, rfl⟩, rfl⟩
    obtain ⟨blocked, some_, after⟩ := ih stillClosed h
    refine ⟨blocked, some_, fun v hv => ?_⟩
    obtain ⟨e, he, rfl, u, hu, left⟩ := after v hv
    obtain ⟨e', he', -, rfl⟩ := mem_withoutFree.1 he
    exact ⟨e', he', rfl, u, (List.mem_filter.1 hu).1, left⟩

/-- **Where elimination fails some phases are stuck.** -/
theorem exists_stuck_of_not_schedulable
    (closed : ∀ v ∈ p.phases, ∀ u ∈ p.before v, u ∈ p.phases) (h : p.schedulable = false) :
    ∃ blocked, p.Stuck blocked := by
  have keys : ∀ e ∈ p.phases.map fun v => (v, p.before v), ∀ u ∈ e.2,
      u ∈ (p.phases.map fun v => (v, p.before v)).map (·.1) := by
    intro e he u hu
    obtain ⟨v, hv, rfl⟩ := List.mem_map.1 he
    rw [keys_waiting]
    exact closed v hv u hu
  obtain ⟨blocked, some_, after⟩ := exists_blocked_of_eliminates keys h
  refine ⟨blocked, some_, fun v hv => ?_, fun v hv => ?_⟩
  · obtain ⟨e, he, rfl, -⟩ := after v hv
    obtain ⟨k, hk, rfl⟩ := List.mem_map.1 he
    exact hk
  · obtain ⟨e, he, rfl, u, hu, left⟩ := after v hv
    obtain ⟨k, -, rfl⟩ := List.mem_map.1 he
    exact ⟨u, hu, left⟩

/-- Where phases are stuck there is no ranking: none of them can be ranked lowest. -/
theorem Stuck.not_ranking {blocked : Set Phase} (stuck : p.Stuck blocked) (rank : Phase → Nat) :
    ¬ p.Ranking rank := by
  intro ranking
  have unranked : ∀ r v, v ∈ blocked → rank v ≠ r := by
    intro r
    induction r using Nat.strong_induction_on with
    | _ r lower =>
      rintro v hv rfl
      obtain ⟨u, hu, left⟩ := stuck.after v hv
      exact lower (rank u) (ranking v (stuck.mem_phases v hv) u hu) u left rfl
  obtain ⟨v, hv⟩ := stuck.nonempty
  exact unranked (rank v) v hv rfl

/-- **The elimination is exact**: it succeeds if and only if the phases can be ranked. -/
theorem schedulable_iff (nodup : p.names.Nodup)
    (closed : ∀ v ∈ p.phases, ∀ u ∈ p.before v, u ∈ p.phases) :
    p.schedulable = true ↔ ∃ rank, p.Ranking rank := by
  refine ⟨exists_ranking_of_schedulable nodup, ?_⟩
  rintro ⟨rank, ranking⟩
  by_contra failed
  obtain ⟨blocked, stuck⟩ :=
    exists_stuck_of_not_schedulable closed (Bool.eq_false_of_not_eq_true failed)
  exact stuck.not_ranking rank ranking

end Precedence

end StepFlow
