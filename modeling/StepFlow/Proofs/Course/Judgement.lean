import StepFlow.Proofs.Course.Tally

/-! # How steps are judged

What the end of a step rests on. A step runs only after everything it waits for has ended well
enough, a group fails exactly if it was skipped or a child of it failed, and since what has ended
keeps its status, what was found at a commit can still be seen at every later moment.

Main statements: `Judged` is the invariant, and `Judged.change` says that every change keeps it. -/

namespace StepFlow

open Call

/-- A moment is **judged** when its commits and the ends of its groups agree with the statuses that
they rest on. -/
structure Judged (f : Flow) (m : Moment) (h : History) : Prop where
  /-- What a running step waited for has ended, and has not failed if the dependency is hard. -/
  run : ∀ n, h.verdict n = some .run → ∀ d ∈ f.edgesFrom n,
    (m.status d.dst).isTerminal = true ∧ (d.soft = false → m.status d.dst = .succeeded)
  /-- What a step that was committed to be skipped waited for has ended, and some hard dependency
  is broken unless the run was stopped. -/
  skip : ∀ n, h.verdict n = some .skip → (∀ d ∈ f.edgesFrom n, (m.status d.dst).isTerminal = true) ∧
    (m.run.stopped = true ∨ ∃ d ∈ f.edgesFrom n, d.soft = false ∧ m.status d.dst = .failed)
  /-- What is covered was skipped. -/
  covered : ∀ n, 0 < m.weight (covers n) → h.Skipped n
  /-- A group counts children that have ended. -/
  counted : ∀ g code, .childFinished g code ∈ m.agenda →
    ∃ n, f.groupOf? n = some g ∧ m.status n = .ofExitCode code
  /-- A group is bound to fail only if it was skipped or a child has failed. -/
  bound : ∀ g p, m.run.progress.get? g = some p → p.failed = true →
    h.Skipped g ∨ ∃ n, f.groupOf? n = some g ∧ m.status n = .failed
  /-- The failure of a child binds the group, or is still to be counted. -/
  bound_of_child : ∀ n g p, f.groupOf? n = some g → m.status n = .failed →
    m.run.progress.get? g = some p →
      p.failed = true ∨ ∃ code ≠ 0, .childFinished g code ∈ m.agenda
  /-- A skipped group is bound to fail, or is still covered. -/
  bound_of_skipped : ∀ g p, h.Skipped g → m.status g = .inProgress →
    m.run.progress.get? g = some p → p.failed = true ∨ 0 < m.weight (covers g)
  /-- A group that has succeeded was run, and its children have succeeded. -/
  succeeded : ∀ g, f.isGroup g = true → m.status g = .succeeded →
    h.verdict g = some .run ∧ ∀ n, f.groupOf? n = some g → m.status n = .succeeded
  /-- A group that has failed was skipped, or a child of it has failed. -/
  failed : ∀ g, f.isGroup g = true → m.status g = .failed →
    h.Skipped g ∨ ∃ n, f.groupOf? n = some g ∧ m.status n = .failed

theorem Status.ofExitCode_eq_failed {code : Int} : ofExitCode code = .failed ↔ code ≠ 0 := by
  unfold ofExitCode
  split <;> simp_all

theorem Status.ofExitCode_eq_succeeded {code : Int} : ofExitCode code = .succeeded ↔ code = 0 := by
  unfold ofExitCode
  split <;> simp_all

/-! ## What a change does to the failure of groups -/

namespace Change

variable {f : Flow} {m m' : Moment} (c : Change m m') {g : Name} {code : Int}

include c

/-- The count of a failed child stays on the agenda until it binds the group to fail. -/
theorem childFinished_stays (h : .childFinished g code ∈ m.agenda) (bad : code ≠ 0) :
    .childFinished g code ∈ m'.agenda ∨
      ∀ p, m'.run.progress.get? g = some p → p.failed = true := by
  have tail : ∀ (extra : List Call) {call : Call} {rest : List Call}, m.agenda = call :: rest →
      m'.agenda = extra ++ rest → call ≠ .childFinished g code →
      .childFinished g code ∈ m'.agenda := by
    intro extra call rest agenda agenda' different
    rw [agenda, List.mem_cons] at h
    rw [agenda']
    exact List.mem_append_right _ (h.resolve_left fun same => different same.symm)
  have whole : ∀ (extra : List Call) {gone rest : List Call}, m.agenda = gone ++ rest →
      m'.agenda = extra ++ rest → (∀ call ∈ gone, m.run.Spent call) →
      .childFinished g code ∈ m'.agenda := by
    intro extra gone rest agenda agenda' spent
    rw [agenda, List.mem_append] at h
    rw [agenda']
    exact List.mem_append_right _ (h.resolve_left fun mem => by cases spent _ mem)
  cases c with
  | idle agenda agenda' spent => exact .inl (whole _ agenda agenda' spent)
  | @handOver gone extra rest n code' agenda agenda' spent =>
    exact .inl (whole (extra ++ [.complete n code']) agenda (by rw [agenda']; simp) spent)
  | leaf agenda agenda' => exact .inl (tail [] agenda agenda' fun h => by cases h)
  | @group s rest agenda agenda' =>
    exact .inl (tail (.notify (.started s.name) ::
        (m.run.flow.rootsIn s.name).map (fun r => Call.evaluate r.name) ++ [.close s.name])
      agenda (by rw [agenda']; simp) fun h => by cases h)
  | @skip s claimed rest agenda agenda' =>
    exact .inl (tail [.notify (.started s.name), .skip s.name claimed] agenda agenda'
      fun h => by cases h)
  | mark agenda agenda' => exact .inl (tail _ agenda agenda' fun h => by cases h)
  | finish agenda cause agenda' =>
    refine .inl (tail _ agenda agenda' ?_)
    rcases cause with rfl | ⟨rfl, -⟩ <;> exact fun h => by cases h
  | @count k code' rest agenda agenda' _ _ progress =>
    by_cases same : Call.childFinished k code' = .childFinished g code
    · -- this is the count in question, and it binds the group
      cases same
      refine .inr fun p hp => ?_
      rw [progress, if_pos rfl] at hp
      obtain ⟨q, -, rfl⟩ := Option.map_eq_some_iff.1 hp
      simp [bad]
    · exact .inl (tail [.close k] agenda agenda' same)
  | down agenda agenda' => exact .inl (tail [] agenda agenda' fun h => by cases h)

/-- A count that is on the agenda was there before, or stands for a step that has just ended. -/
theorem childFinished_before (h : .childFinished g code ∈ m'.agenda) :
    .childFinished g code ∈ m.agenda ∨
      ∃ n, m.run.flow.groupOf? n = some g ∧ m.ended? = some (n, code) := by
  have tail : ∀ (gone extra : List Call) {rest : List Call}, m.agenda = gone ++ rest →
      m'.agenda = extra ++ rest → .childFinished g code ∉ extra →
      .childFinished g code ∈ m.agenda := by
    intro gone extra rest agenda agenda' absent
    rw [agenda', List.mem_append] at h
    rw [agenda]
    exact List.mem_append_right _ (h.resolve_left absent)
  have heavy : ∀ {extra : List Call}, (∀ call ∈ extra, call.isLight = true) →
      .childFinished g code ∉ extra := fun light mem => by cases light _ mem
  cases c with
  | idle agenda agenda' _ light => exact .inl (tail _ _ agenda agenda' (heavy light))
  | @handOver gone extra rest n code' agenda agenda' _ light =>
    refine .inl (tail gone (extra ++ [.complete n code']) agenda (by rw [agenda']; simp) ?_)
    rw [List.mem_append, List.mem_singleton]
    rintro (mem | same)
    · exact heavy light mem
    · cases same
  | @leaf s rest agenda agenda' =>
    exact .inl (tail [.evaluate s.name] [] agenda agenda' (by simp))
  | @group s rest agenda agenda' =>
    exact .inl (tail [.evaluate s.name] (.notify (.started s.name) ::
        (m.run.flow.rootsIn s.name).map (fun r => Call.evaluate r.name) ++ [.close s.name])
      agenda (by rw [agenda']; simp) (by simp))
  | @skip s claimed rest agenda agenda' =>
    exact .inl (tail [.evaluate s.name]
      [.notify (.started s.name), .skip s.name claimed] agenda agenda' (by simp))
  | @mark k claimed rest agenda agenda' =>
    refine .inl (tail [.skip k claimed] _ agenda agenda' fun mem => ?_)
    rcases Orderly.mem_skip mem with ⟨n, h⟩ | ⟨n, h⟩ | ⟨n, h, -⟩ <;> cases h
  | @finish n code' call rest agenda cause agenda' _ _ _ _ _ _ ended? =>
    rw [agenda', List.mem_append] at h
    rcases h with new | old
    · -- of what follows from an end only the count of the step itself is a count
      rcases Orderly.mem_propagation new with h | ⟨d, -, h⟩ | ⟨k, hk, h⟩ | h
      · cases h
      · cases h
      · cases h
        exact .inr ⟨n, hk, ended?⟩
      · cases h
    · exact .inl (by rw [agenda]; exact List.mem_cons_of_mem _ old)
  | @count k code' rest agenda agenda' =>
    exact .inl (tail [.childFinished k code'] [.close k] agenda agenda'
      (by simp))
  | down agenda agenda' =>
    exact .inl (tail [.countDown] [] agenda agenda' (by simp))

/-- A group is bound to fail from when it is marked or counts a failed child. -/
theorem failed_after {p' : Progress} (hp : m'.run.progress.get? g = some p') :
    ∃ p, m.run.progress.get? g = some p ∧ (p.failed = true → p'.failed = true) ∧
      (p'.failed = true → p.failed = true ∨ 0 < m.weight (covers g) ∨
        ∃ code ≠ 0, .childFinished g code ∈ m.agenda) := by
  have same : m'.run.progress = m.run.progress →
      ∃ p, m.run.progress.get? g = some p ∧ (p.failed = true → p'.failed = true) ∧
        (p'.failed = true → p.failed = true ∨ 0 < m.weight (covers g) ∨
          ∃ code ≠ 0, .childFinished g code ∈ m.agenda) := fun progress =>
    ⟨p', by rw [← progress, hp], id, .inl⟩
  cases c with
  | idle _ _ _ _ agrees => exact same agrees.progress
  | handOver _ _ _ _ agrees => exact same agrees.progress
  | leaf _ _ _ _ _ _ _ _ progress => exact same progress
  | group _ _ _ _ _ _ _ _ progress => exact same progress
  | skip _ _ _ _ _ _ _ _ _ _ _ _ progress => exact same progress
  | @mark k claimed rest agenda _ _ _ progress =>
    rw [progress] at hp
    split at hp
    · -- a group that is marked was covered by the skip
      rename_i marked
      obtain ⟨p, old, rfl⟩ := Option.map_eq_some_iff.1 hp
      refine ⟨p, old, fun _ => rfl, fun _ => .inr (.inl ?_)⟩
      refine @total_pos_of_mem _ _ (.skip k claimed)
        (by rw [agenda]; exact List.mem_cons_self) ?_
      rw [covers]
      rcases List.mem_cons.1 marked with rfl | inside
      · rw [if_pos rfl]
        omega
      · obtain ⟨t, ht, rfl⟩ := List.mem_map.1 inside
        have := List.count_pos_iff.2
          (List.mem_map_of_mem (f := (·.name)) (List.mem_filter.1 ht).1)
        omega
    · exact ⟨p', hp, id, .inl⟩
  | finish _ _ _ _ _ progress => exact same progress
  | @count k code rest agenda _ _ _ progress =>
    rw [progress] at hp
    split at hp
    · rename_i counted
      subst counted
      obtain ⟨p, old, rfl⟩ := Option.map_eq_some_iff.1 hp
      refine ⟨p, old, fun h => by simp [h], fun h => ?_⟩
      simp only [Bool.or_eq_true, decide_eq_true_eq] at h
      exact h.imp_right fun h =>
        .inr ⟨code, h, by rw [agenda]; exact List.mem_cons_self⟩
    · exact ⟨p', hp, id, .inl⟩
  | down _ _ _ _ progress => exact same progress

/-- What covers a group is taken away only when the group is marked. -/
theorem covers_stays (o : Orderly f m) (isGroup : f.isGroup g = true)
    (h : 0 < m.weight (covers g)) : 0 < m'.weight (covers g) ∨
      ∀ p, m'.run.progress.get? g = some p → p.failed = true := by
  have weight : ∀ (gone extra : List Call) {rest : List Call}, m.agenda = gone ++ rest →
      m'.agenda = extra ++ rest → total (covers g) gone = 0 → 0 < m'.weight (covers g) := by
    intro gone extra rest agenda agenda' weightless
    rw [Moment.weight, agenda, total_append, weightless, Nat.zero_add] at h
    rw [Moment.weight, agenda', total_append]
    omega
  have spends : ∀ {gone : List Call}, (∀ call ∈ gone, m.run.Spent call) →
      total (covers g) gone = 0 := fun spent =>
    (isWeight_covers g).total_eq_zero fun call hc =>
      Coordinator.isWeightless_of_spent (spent call hc)
  cases c with
  | idle agenda agenda' spent => exact .inl (weight _ _ agenda agenda' (spends spent))
  | @handOver gone extra rest n code' agenda agenda' spent =>
    exact .inl (weight gone (extra ++ [.complete n code']) agenda (by rw [agenda']; simp)
      (spends spent))
  | @leaf s rest agenda agenda' =>
    exact .inl (weight [.evaluate s.name] [] agenda agenda' rfl)
  | @group s rest agenda agenda' =>
    exact .inl (weight [.evaluate s.name] (.notify (.started s.name) ::
        (m.run.flow.rootsIn s.name).map (fun r => Call.evaluate r.name) ++ [.close s.name])
      agenda (by rw [agenda']; simp) rfl)
  | @skip s claimed rest agenda agenda' =>
    exact .inl (weight [.evaluate s.name]
      [.notify (.started s.name), .skip s.name claimed] agenda agenda' rfl)
  | @mark k claimed rest agenda agenda' _ _ progress =>
    by_cases here : covers g (.skip k claimed) = 0
    · exact .inl (weight [.skip k claimed] _ agenda agenda'
        (by rw [total_cons, here]; rfl))
    · -- a group that this skip covered is marked by it
      refine .inr fun p hp => ?_
      obtain ⟨-, steps, -⟩ := o.skips k claimed (by rw [agenda]; exact List.mem_cons_self)
      have marked : g ∈ k :: (claimed.filter (·.isGroup)).map (·.name) := by
        by_cases same : k = g
        · rw [same]
          exact List.mem_cons_self
        · rw [covers, if_neg same, Nat.zero_add] at here
          obtain ⟨t, ht, rfl⟩ := List.mem_map.1 (List.count_pos_iff.1 (Nat.pos_of_ne_zero here))
          rw [Flow.isGroup_of_step? (steps t ht)] at isGroup
          exact List.mem_cons_of_mem _
            (List.mem_map.2 ⟨t, List.mem_filter.2 ⟨ht, isGroup⟩, rfl⟩)
      rw [progress, if_pos marked] at hp
      obtain ⟨q, -, rfl⟩ := Option.map_eq_some_iff.1 hp
      rfl
  | @finish n code' call rest agenda cause agenda' =>
    refine .inl (weight [call] _ agenda agenda' ?_)
    rcases cause with rfl | ⟨rfl, -⟩ <;> rfl
  | @count k code' rest agenda agenda' =>
    exact .inl (weight [.childFinished k code'] [.close k] agenda agenda' rfl)
  | down agenda agenda' =>
    exact .inl (weight [.countDown] [] agenda agenda' rfl)

/-- A step that is covered was covered before, or is skipped just now. -/
theorem covers_before (o : Orderly f m) (con : f.Consistent) {n : Name}
    (h : 0 < m'.weight (covers n)) : 0 < m.weight (covers n) ∨
      m.verdict? n = some .skip ∨ m.verdict? n = some .claim := by
  -- where no covering call is new the cover was on the agenda before
  have weight : ∀ (gone extra : List Call) {rest : List Call}, m.agenda = gone ++ rest →
      m'.agenda = extra ++ rest → total (covers n) extra = 0 → 0 < m.weight (covers n) := by
    intro gone extra rest agenda agenda' weightless
    rw [Moment.weight, agenda', total_append, weightless, Nat.zero_add] at h
    rw [Moment.weight, agenda, total_append]
    omega
  have light : ∀ {extra : List Call}, (∀ call ∈ extra, call.isLight = true) →
      total (covers n) extra = 0 := (isWeight_covers n).total_light
  cases c with
  | idle agenda agenda' _ isLight => exact .inl (weight _ _ agenda agenda' (light isLight))
  | @handOver gone extra rest k code' agenda agenda' _ isLight =>
    refine .inl (weight gone (extra ++ [.complete k code']) agenda (by rw [agenda']; simp) ?_)
    rw [total_append, light isLight]
    rfl
  | @leaf s rest agenda agenda' =>
    exact .inl (weight [.evaluate s.name] [] agenda agenda' rfl)
  | @group s rest agenda agenda' =>
    refine .inl (weight [.evaluate s.name] (.notify (.started s.name) ::
        (m.run.flow.rootsIn s.name).map (fun r => Call.evaluate r.name) ++ [.close s.name])
      agenda (by rw [agenda']; simp) ((isWeight_covers n).total_eq_zero ?_))
    intro call hc
    rw [List.cons_append, List.mem_cons, List.mem_append, List.mem_map, List.mem_singleton] at hc
    rcases hc with rfl | ⟨r, -, rfl⟩ | rfl <;> rfl
  | @skip s claimed rest agenda agenda' _ _ waits _ _ _ mem _ _ _ _ _ _ commit? =>
    by_cases here : covers n (.skip s.name claimed) = 0
    · exact .inl (weight [.evaluate s.name]
        [.notify (.started s.name), .skip s.name claimed] agenda agenda'
        (by rw [total_cons, total_cons, here]; rfl))
    · -- the new call covers the group that is skipped and the steps that were claimed with it
      by_cases same : s.name = n
      · subst same
        exact .inr (.inl (Moment.verdict?_self commit?))
      · rw [covers, if_neg same, Nat.zero_add] at here
        have inside := List.count_pos_iff.1 (Nat.pos_of_ne_zero here)
        refine .inr (.inr ((o.verdict?_eq_claim_iff con).2
          ⟨s.name, ?_, Moment.verdict?_self commit?⟩))
        exact (o.claimed_iff con (o.not_nested_of_commit? commit?) waits mem n).1 inside
  | @mark k claimed rest agenda agenda' =>
    exact .inl (weight [.skip k claimed] _ agenda agenda'
      (Orderly.total_skip_eq_zero (isWeight_covers n) (fun _ _ => rfl) _ _ _))
  | @finish k code' call rest agenda cause agenda' =>
    refine .inl (weight [call] _ agenda agenda' ?_)
    rw [Orderly.total_propagation (isWeight_covers n)]
    cases m.run.flow.groupOf? k <;> rfl
  | @count k code' rest agenda agenda' =>
    exact .inl (weight [.childFinished k code'] [.close k] agenda agenda' rfl)
  | down agenda agenda' =>
    exact .inl (weight [.countDown] [] agenda agenda' rfl)

/-- The count of a step that has just ended is on the agenda. -/
theorem childFinished_of_ended? {n : Name} (child : m.run.flow.groupOf? n = some g)
    (ended : m.ended? = some (n, code)) : .childFinished g code ∈ m'.agenda := by
  obtain ⟨call, rest, -, -, agenda', -⟩ := c.finish_of_ended? ended
  rw [agenda', Coordinator.propagation, ← Flow.groupOf?, child]
  simp

/-- A group that is skipped is covered by that. -/
theorem covers_of_verdict? (o : Orderly f m) (con : f.Consistent) {n : Name}
    (h : m.verdict? n = some .skip ∨ m.verdict? n = some .claim) (isGroup : f.isGroup n = true) :
    0 < m'.weight (covers n) := by
  have commit : ∃ g, m.commit? = some (g, .skip) ∧ (g = n ∨ f.Under n g) := by
    rcases h with skip | claim
    · exact ⟨n, Moment.commit?_of_skip skip, .inl rfl⟩
    · obtain ⟨g, under, skip⟩ := (o.verdict?_eq_claim_iff con).1 claim
      exact ⟨g, Moment.commit?_of_skip skip, .inr under⟩
  obtain ⟨g, hs, inside⟩ := commit
  have named : ∀ {k d}, m.commit? = some (k, d) → g = k := fun hk =>
    congrArg Prod.fst (Option.some.inj (hs.symm.trans hk))
  cases c with
  | @skip s claimed rest agenda agenda' _ _ waits _ _ _ mem _ _ _ _ _ _ commit? =>
    have same := named commit?
    subst same
    refine @total_pos_of_mem _ _ (.skip s.name claimed) (by rw [agenda']; simp) ?_
    rw [covers]
    rcases inside with same | under
    · rw [if_pos same]
      omega
    · have free := o.not_nested_of_commit? commit?
      have := List.count_pos_iff.2 ((o.claimed_iff con free waits mem n).2 under)
      omega
  | leaf _ _ found isLeaf _ _ _ _ _ _ _ commit? =>
    -- a leaf is no group, and no group lies under it
    have same := named commit?
    subst same
    rw [o.flow] at found
    have group := Flow.isGroup_of_step? found
    rw [isLeaf] at group
    rcases inside with rfl | under
    · rw [isGroup] at group
      cases group
    · rw [con.isGroup_of_under under] at group
      cases group
  | group _ _ _ _ _ _ _ _ _ _ _ commit? => rw [hs] at commit?; cases commit?
  | idle _ _ _ _ _ _ commit? => rw [hs] at commit?; cases commit?
  | handOver _ _ _ _ _ _ _ commit? => rw [hs] at commit?; cases commit?
  | mark _ _ _ _ _ _ _ commit? => rw [hs] at commit?; cases commit?
  | finish _ _ _ _ _ _ _ _ commit? => rw [hs] at commit?; cases commit?
  | count _ _ _ _ _ _ _ commit? => rw [hs] at commit?; cases commit?
  | down _ _ _ _ _ _ _ commit? => rw [hs] at commit?; cases commit?

end Change

namespace Judged

variable {f : Flow} {m m' : Moment} {h : History} (con : f.Consistent) (o : Orderly f m)
  (k : Counted f m) (r : Recorded f m h) (j : Judged f m h) (c : Change m m')

/-! ## The end of a group -/

include con o k r j c

/-- A group that ends with success was run, and its children have succeeded. -/
private theorem succeeded_now {g : Name} (isGroup : f.isGroup g = true)
    (ended : m.ended? = some (g, 0)) :
    h.verdict g = some .run ∧ ∀ n, f.groupOf? n = some g → m.status n = .succeeded := by
  have closing := o.closing?_of_ended? c isGroup ended
  have due : m.run.closing? g ≠ none := by rw [closing]; exact fun h => by cases h
  obtain ⟨active, p, hp, zero⟩ := Coordinator.closing?_ne_none.1 due
  have clean : p.failed = false := by
    rw [Coordinator.closing?, hp, Option.bind_some, if_pos ⟨active, zero⟩] at closing
    cases hf : p.failed with
    | false => rfl
    | true => rw [hf] at closing; cases closing
  have free := o.covers_of_ended? c ended
  constructor
  · -- a skipped group that is not covered any more is bound to fail
    by_contra notRun
    have skipped := (r.skipped_iff (by rw [show m.status g = .inProgress from active]; decide)).2
      notRun
    rcases j.bound_of_skipped g p skipped active hp with failed | covered
    · rw [clean] at failed
      cases failed
    · omega
  · intro n child
    have settled := k.terminal_of_closing? con due child
    cases hn : m.status n with
    | succeeded => rfl
    | waiting => rw [hn] at settled; cases settled
    | inProgress => rw [hn] at settled; cases settled
    | failed =>
      -- the failure of a child would bind the group, or its count would be pending
      rcases j.bound_of_child n g p child hn hp with failed | ⟨code, -, count⟩
      · rw [clean] at failed
        cases failed
      · have none := (k.of_closing? due).2
        have := total_pos_of_mem (w := counts g) count (by simp [counts])
        rw [Moment.weight] at none
        omega

omit con k r in
/-- A group that ends with a failure was skipped, or a child of it has failed. -/
private theorem failed_now {g : Name} {code : Int} (bad : code ≠ 0) (isGroup : f.isGroup g = true)
    (ended : m.ended? = some (g, code)) :
    h.Skipped g ∨ ∃ n, f.groupOf? n = some g ∧ m.status n = .failed := by
  have closing := o.closing?_of_ended? c isGroup ended
  obtain ⟨active, p, hp, zero⟩ := Coordinator.closing?_ne_none.1
    (show m.run.closing? g ≠ none by rw [closing]; exact fun h => by cases h)
  refine j.bound g p hp ?_
  rw [Coordinator.closing?, hp, Option.bind_some, if_pos ⟨active, zero⟩] at closing
  cases hf : p.failed with
  | true => rfl
  | false =>
    rw [hf] at closing
    cases closing
    exact absurd rfl bad

/-! ## Every change keeps the invariant -/

/-- **Every change keeps a moment judged.** -/
theorem change (stops : m.run.stopped = true → m'.run.stopped = true) :
    Judged f m' (m :: h) := by
  have terminal : ∀ {n}, (m.status n).isTerminal = true → m'.status n = m.status n :=
    o.terminal_stays con c
  have succeeds : ∀ {n}, m.status n = .succeeded → m'.status n = .succeeded := fun hn => by
    rw [terminal (by rw [hn]; rfl), hn]
  have fails : ∀ {n}, m.status n = .failed → m'.status n = .failed := fun hn => by
    rw [terminal (by rw [hn]; rfl), hn]
  have given := fun n v => r.verdict_cons_eq_some_iff (n := n) (v := v) o con
  exact
    { run := fun n hn d hd => by
        rcases (given n _).1 hn with now | before
        · have commit := Moment.commit?_of_run now
          have settled := o.ended_of_commit? commit hd
          exact ⟨by rw [terminal settled]; exact settled,
            fun hard => succeeds (o.succeeded_of_commit_run commit hd hard)⟩
        · obtain ⟨settled, hard⟩ := j.run n before d hd
          exact ⟨by rw [terminal settled]; exact settled, fun h => succeeds (hard h)⟩
      skip := fun n hn => by
        rcases (given n _).1 hn with now | before
        · have commit := Moment.commit?_of_skip now
          refine ⟨fun d hd => ?_, ?_⟩
          · have settled := o.ended_of_commit? commit hd
            rw [terminal settled]
            exact settled
          · exact (o.cause_of_commit_skip commit).imp stops
              fun ⟨d, hd, hard, broken⟩ => ⟨d, hd, hard, fails broken⟩
        · obtain ⟨settled, cause⟩ := j.skip n before
          refine ⟨fun d hd => ?_, ?_⟩
          · rw [terminal (settled d hd)]
            exact settled d hd
          · exact cause.imp stops fun ⟨d, hd, hard, broken⟩ => ⟨d, hd, hard, fails broken⟩
      covered := fun n hn => by
        rcases c.covers_before o con hn with before | now | now
        · exact r.skipped_stays o con (j.covered n before)
        · exact .inl ((given n _).2 (.inl now))
        · exact .inr ((given n _).2 (.inl now))
      counted := fun g code hg => by
        rcases c.childFinished_before hg with before | ⟨n, child, ended⟩
        · obtain ⟨n, child, status⟩ := j.counted g code before
          refine ⟨n, child, ?_⟩
          rw [terminal (by rw [status]; exact Status.isTerminal_ofExitCode code), status]
        · rw [o.flow] at child
          exact ⟨n, child, (o.of_ended? c ended).2⟩
      bound := fun g p' hp' failed => by
        obtain ⟨p, hp, -, cause⟩ := c.failed_after hp'
        rcases cause failed with before | covered | ⟨code, bad, count⟩
        · exact (j.bound g p hp before).imp (r.skipped_stays o con)
            fun ⟨n, child, status⟩ => ⟨n, child, fails status⟩
        · exact .inl (r.skipped_stays o con (j.covered g covered))
        · obtain ⟨n, child, status⟩ := j.counted g code count
          exact .inr ⟨n, child, fails (by rw [status, Status.ofExitCode_eq_failed.2 bad])⟩
      bound_of_child := fun n g p' child status hp' => by
        obtain ⟨p, hp, stays, -⟩ := c.failed_after hp'
        rcases o.ended_before con c (n := n) (by rw [status]; rfl) with same | ⟨code, ended⟩
        · rw [status] at same
          rcases j.bound_of_child n g p child same.symm hp with failed | ⟨code, bad, count⟩
          · exact .inl (stays failed)
          · rcases c.childFinished_stays count bad with still | failed
            · exact .inr ⟨code, bad, still⟩
            · exact .inl (failed p' hp')
        · -- the count of a step that has just ended is on the agenda
          have bad : code ≠ 0 := by
            rw [(o.of_ended? c ended).2] at status
            exact Status.ofExitCode_eq_failed.1 status
          refine .inr ⟨code, bad, ?_⟩
          exact c.childFinished_of_ended? (by rw [o.flow]; exact child) ended
      bound_of_skipped := fun g p' skipped active hp' => by
        obtain ⟨p, hp, stays, -⟩ := c.failed_after hp'
        have isGroup : f.isGroup g = true := by rw [← k.progress g, hp]; rfl
        rcases o.active_before con c active with before | ⟨v, now⟩
        · -- the group was skipped before, and what covers it goes only when it is marked
          have old : h.Skipped g := by
            have none : ∀ v, m.verdict? g ≠ some v := fun v hv => by
              rw [o.waiting_of_verdict? con hv] at before
              cases before
            exact skipped.imp (fun hv => ((given g _).1 hv).resolve_left (none _))
              fun hv => ((given g _).1 hv).resolve_left (none _)
          rcases j.bound_of_skipped g p old before hp with failed | covered
          · exact .inl (stays failed)
          · exact (c.covers_stays o isGroup covered).symm.imp_left fun failed => failed p' hp'
        · -- the group is skipped just now, which covers it
          have none : ∀ v, h.verdict g ≠ some v := fun v hv =>
            r.status_ne_waiting hv (o.waiting_of_verdict? con now)
          exact .inr (c.covers_of_verdict? o con
            (skipped.imp (fun hv => ((given g _).1 hv).resolve_right (none _))
              fun hv => ((given g _).1 hv).resolve_right (none _)) isGroup)
      succeeded := fun g isGroup status => by
        rcases o.ended_before con c (n := g) (by rw [status]; rfl) with same | ⟨code, ended⟩
        · rw [status] at same
          obtain ⟨run, children⟩ := j.succeeded g isGroup same.symm
          exact ⟨r.verdict_stays o con run, fun n child => succeeds (children n child)⟩
        · rw [(o.of_ended? c ended).2, Status.ofExitCode_eq_succeeded] at status
          subst status
          obtain ⟨run, children⟩ := j.succeeded_now con o k r c isGroup ended
          exact ⟨r.verdict_stays o con run, fun n child => succeeds (children n child)⟩
      failed := fun g isGroup status => by
        rcases o.ended_before con c (n := g) (by rw [status]; rfl) with same | ⟨code, ended⟩
        · rw [status] at same
          exact (j.failed g isGroup same.symm).imp (r.skipped_stays o con)
            fun ⟨n, child, failed⟩ => ⟨n, child, fails failed⟩
        · rw [(o.of_ended? c ended).2, Status.ofExitCode_eq_failed] at status
          exact (j.failed_now o c status isGroup ended).imp (r.skipped_stays o con)
            fun ⟨n, child, failed⟩ => ⟨n, child, fails failed⟩ }

end Judged

/-- A group that was run has succeeded, once it has ended, if its children have. -/
theorem Judged.succeeded_of_children {f : Flow} {m : Moment} {h : History} (j : Judged f m h)
    (r : Recorded f m h) {g : Name} (isGroup : f.isGroup g = true) (run : h.verdict g = some .run)
    (ended : (m.status g).isTerminal = true)
    (children : ∀ n, f.groupOf? n = some g → m.status n = .succeeded) :
    m.status g = .succeeded := by
  cases status : m.status g with
  | succeeded => rfl
  | waiting | inProgress => rw [status] at ended; cases ended
  | failed =>
    -- it would have been skipped, or a child of it would have failed
    rcases j.failed g isGroup status with skipped | ⟨n, child, failed⟩
    · exact absurd run ((r.skipped_iff (r.status_ne_waiting run)).1 skipped)
    · rw [children n child] at failed
      cases failed

theorem Judged.initial {f : Flow} (con : f.Consistent) (workers : Nat) (registry : Registry) :
    Judged f (Moment.initial f workers registry) [] where
  run n hn := by cases hn
  skip n hn := by cases hn
  covered n hn := by cases hn
  counted g code hg := by cases hg
  bound g p hp failed := by
    rw [Moment.initial, Coordinator.get?_progress_initial con.nodup_names] at hp
    split at hp
    · cases hp
      cases failed
    · cases hp
  bound_of_child n g p _ status _ := by
    rw [Moment.status_initial] at status
    cases status
  bound_of_skipped g p _ active _ := by
    rw [Moment.status_initial] at active
    cases active
  succeeded g _ status := by
    rw [Moment.status_initial] at status
    cases status
  failed g _ status := by
    rw [Moment.status_initial] at status
    cases status

end StepFlow
