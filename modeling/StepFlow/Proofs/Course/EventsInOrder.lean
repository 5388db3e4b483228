import StepFlow.Proofs.Course.Trace
import StepFlow.Proofs.Course.Setup

/-! # The events of a step in order

All that is told of a step in a run is its **tale**: its start if it was announced, then the lines
that its executor has put out, then its end if that was propagated.

Events are told later than they are made, and what is made in between is told first. So the tale is
read off the events that were told together with those that still stand on the agenda, and for it to
stay in order nothing may be made about a step while something about it is still to be told. A line
and an end are told before the worker of the leaf, or the group, has its next say. Only the start of
a group that was claimed stands behind other starts, and nothing that comes before it ends the
group.

Main statements: `Tale` is the invariant, `Tale.next` says that every move keeps it, and
`Setup.tale` that it holds in every run. -/

namespace StepFlow

open Call Coordinator

/-! ## Events that were told -/

/-- The event that is told in the next move. -/
def Moment.told? (m : Moment) : Option Event := m.agenda.head?.bind Call.event?

/-- The events that were **told** in a run, the latest first. -/
def History.told (h : History) : List Event := h.filterMap Moment.told?

/-- The **tidings** of a run: the events that were told and then those that are to be told. -/
def tidings (m : Moment) (h : History) : List Event := h.told.reverse ++ toTell m.agenda

theorem History.told_cons (m : Moment) (h : History) :
    told (m :: h) = m.told?.toList ++ told h := by
  unfold told
  cases hm : m.told? <;> simp [hm]

theorem Moment.toTell_agenda (m : Moment) :
    toTell m.agenda = m.told?.toList ++ toTell m.agenda.tail := by
  unfold Moment.told?
  cases m.agenda with
  | nil => rfl
  | cons call rest => exact toTell_cons call rest

/-- What a move makes comes before what is still to be told. -/
theorem tidings_next (m : Moment) (h : History) (x : Choice) :
    ∃ told, tidings m h = told ++ toTell m.agenda.tail ∧
      tidings (m.next x) (m :: h) = told ++ toTell (m.fresh x) ++ toTell m.agenda.tail := by
  refine ⟨h.told.reverse ++ m.told?.toList, ?_, ?_⟩
  · rw [tidings, m.toTell_agenda, List.append_assoc]
  · have last : m.told?.toList.reverse = m.told?.toList := by cases m.told? <;> rfl
    rw [tidings, History.told_cons, List.reverse_append, last, m.agenda_next, toTell_append,
      List.append_assoc _ (toTell (m.fresh x))]

/-- What a move makes about a step comes last of all about it if nothing is still to be told. -/
theorem filter_tidings_next {m : Moment} {h : History} {x : Choice} {n : Name} {made : List Event}
    (fresh : (toTell (m.fresh x)).filter (·.step = n) = made)
    (alone : made ≠ [] → (toTell m.agenda.tail).filter (·.step = n) = []) :
    (tidings (m.next x) (m :: h)).filter (·.step = n) =
      (tidings m h).filter (·.step = n) ++ made := by
  obtain ⟨told, before, now⟩ := tidings_next m h x
  rw [now, before, List.filter_append, List.filter_append, List.filter_append, fresh]
  by_cases none : made = []
  · rw [none, List.append_nil, List.append_nil]
  · rw [alone none, List.append_nil, List.append_nil]

/-! ## Claimed groups that are not announced -/

/-- How often a call stands for the start and the end of a step that was claimed. -/
def Call.claims (n : Name) : Call → Nat
  | .skip _ claimed => (claimed.map (·.name)).count n
  | _ => 0

theorem Call.isWeight_claims (n : Name) : IsWeight (claims n) := by
  intro call h
  cases call <;> first | rfl | cases h

theorem Moment.claims_le_covers (m : Moment) (n : Name) :
    m.weight (claims n) ≤ m.weight (covers n) := by
  unfold Moment.weight
  induction m.agenda with
  | nil => exact Nat.le_refl _
  | cons call rest ih =>
    have here : claims n call ≤ covers n call := by
      cases call <;> simp [claims, covers]
    rw [total_cons, total_cons]
    omega

/-- A step is **out** when it has left its waiting and is not claimed for a skip that has not
begun. -/
def Moment.Out (m : Moment) (n : Name) : Prop := m.status n ≠ .waiting ∧ m.weight (claims n) = 0

instance (m : Moment) (n : Name) : Decidable (m.Out n) :=
  inferInstanceAs (Decidable (_ ∧ _))

/-- Whether the start of a step was **announced**: that of a group when it is out, and that of a
leaf when it got to run or its worker has skipped it. -/
def Announced (f : Flow) (m : Moment) (h : History) (n : Name) : Prop :=
  if f.isGroup n = true then m.Out n
  else History.Admitted (m :: h) n ∨
    (h.verdict n = some .skip ∧ m.run.stages.get? n = some .done)

instance (f : Flow) (m : Moment) (h : History) (n : Name) : Decidable (Announced f m h n) := by
  unfold Announced
  exact inferInstance

theorem announced_of_group {f : Flow} {m : Moment} {h : History} {n : Name}
    (isGroup : f.isGroup n = true) : Announced f m h n ↔ m.Out n := by
  rw [Announced, if_pos isGroup]

theorem announced_of_other {f : Flow} {m : Moment} {h : History} {n : Name}
    (other : f.isGroup n ≠ true) : Announced f m h n ↔ History.Admitted (m :: h) n ∨
      (h.verdict n = some .skip ∧ m.run.stages.get? n = some .done) := by
  rw [Announced, if_neg other]

namespace Orderly

variable {f : Flow} {m m' : Moment} (con : f.Consistent) (o : Orderly f m)

include con o

/-- What a change claims: nothing, or what lies under a group that is committed to be skipped. -/
private theorem claims_of_change (c : Change m m')
    (unmarked : ∀ g claimed rest, m.agenda ≠ .skip g claimed :: rest) :
    (∀ n, m'.weight (claims n) = m.weight (claims n) ∧ m.verdict? n ≠ some .claim) ∨
      ∃ (g : Name) (names : List Name), m.commit? = some (g, .skip) ∧
        (∀ n, n ∈ names ↔ f.Under n g) ∧
        ∀ n, m'.weight (claims n) = names.count n + m.weight (claims n) := by
  have quiet : m.commit? = none → ∀ n, m.verdict? n ≠ some .claim := fun none n h => by
    rw [Moment.verdict?_of_none none] at h
    cases h
  have one : ∀ {call rest} extra, m.agenda = call :: rest → m'.agenda = extra ++ rest →
      call.isWeightless = true → (∀ k ∈ extra, k.isWeightless = true) →
      ∀ n, m'.weight (claims n) = m.weight (claims n) := by
    intro call rest extra agenda agenda' gone weightless n
    rw [Moment.weight, Moment.weight, agenda, agenda', total_append, total_cons,
      isWeight_claims n _ gone, (isWeight_claims n).total_eq_zero weightless]
  cases c with
  | idle agenda agenda' spent light _ _ commit? =>
    exact .inl fun n => ⟨weight_of_light (isWeight_claims n) agenda agenda'
      (fun call hc => isWeightless_of_spent (spent call hc)) light, quiet commit? n⟩
  | @handOver gone extra rest k code agenda agenda' spent light _ _ _ commit? =>
    -- the end that a worker hands over claims nothing
    refine .inl fun n => ⟨?_, quiet commit? n⟩
    rw [Moment.weight, Moment.weight, agenda, agenda', total_append, total_append, total_cons,
      (isWeight_claims n).total_light light, (isWeight_claims n).total_eq_zero fun call hc =>
        isWeightless_of_spent (spent call hc), show claims n (.complete k code) = 0 from rfl,
      Nat.zero_add]
  | @leaf s rest agenda agenda' found isLeaf _ _ _ _ _ _ _ commit? =>
    refine .inl fun n => ⟨one [] agenda agenda' rfl (by simp) n, fun claim => ?_⟩
    -- a leaf has nothing under it
    obtain ⟨g, under, hg⟩ := (o.verdict?_eq_claim_iff con).1 claim
    have isGroup := con.isGroup_of_under under
    have same : g = s.name :=
      congrArg Prod.fst (Option.some.inj ((Moment.commit?_of_skip hg).symm.trans commit?))
    rw [o.flow] at found
    rw [same, Flow.isGroup_of_step? found, isLeaf] at isGroup
    cases isGroup
  | @group s rest agenda agenda' _ _ _ _ _ _ _ _ _ commit? =>
    refine .inl fun n => ⟨one (.notify (.started s.name) ::
      (m.run.flow.rootsIn s.name).map (fun r => Call.evaluate r.name) ++ [.close s.name]) agenda
      (by rw [agenda']; simp) rfl (by simp [or_imp, forall_and, isWeightless]) n, fun claim => ?_⟩
    -- what is committed is the group that runs, and not one that is skipped
    obtain ⟨g, -, hg⟩ := (o.verdict?_eq_claim_iff con).1 claim
    rw [Moment.commit?_of_skip hg] at commit?
    cases commit?
  | @skip s claimed rest agenda agenda' _ _ waits _ _ _ mem _ _ _ _ _ _ commit? =>
    refine .inr ⟨s.name, claimed.map (·.name), commit?,
      o.claimed_iff con (o.not_nested_of_commit? commit?) waits mem, fun n => ?_⟩
    rw [Moment.weight, Moment.weight, agenda, agenda', total_cons, total_cons, total_cons,
      isWeight_claims n (.notify _) rfl, isWeight_claims n (.evaluate _) rfl, Nat.zero_add,
      Nat.zero_add]
    rfl
  | mark agenda => exact absurd agenda (unmarked _ _ _)
  | @finish n code call rest agenda cause agenda' _ _ _ _ _ commit? =>
    have gone : ∀ k, claims k call = 0 := by
      rcases cause with rfl | ⟨rfl, -⟩ <;> exact fun _ => rfl
    refine .inl fun k => ⟨?_, quiet commit? k⟩
    rw [Moment.weight, Moment.weight, agenda, agenda', total_append, total_cons, gone,
      total_propagation (isWeight_claims k)]
    cases m.run.flow.groupOf? n <;> simp [claims]
  | @count g code rest agenda agenda' _ _ _ _ _ commit? =>
    refine .inl fun n => ⟨?_, quiet commit? n⟩
    rw [Moment.weight, Moment.weight, agenda, agenda', total_cons, total_cons]
    rfl
  | down agenda agenda' _ _ _ _ _ commit? =>
    refine .inl fun n => ⟨?_, quiet commit? n⟩
    rw [Moment.weight, Moment.weight, agenda, agenda', total_cons,
      show claims n .countDown = 0 from rfl, Nat.zero_add]

omit con in
/-- A step that waits is not claimed. -/
theorem claims_of_waiting {n : Name} (h : m.status n = .waiting) : m.weight (claims n) = 0 := by
  have le := m.claims_le_covers n
  have free := (o.free_of_waiting h).2.2.1
  omega

omit con in
/-- A step is committed when it gets a verdict of its own. -/
theorem commit?_iff {n : Name} : m.commit?.map (·.1) = some n ↔
    m.verdict? n = some .run ∨ m.verdict? n = some .skip := by
  constructor
  · intro h
    obtain ⟨⟨k, d⟩, commit, rfl⟩ := Option.map_eq_some_iff.1 h
    rw [Moment.verdict?_self commit]
    cases d with
    | noop => exact absurd rfl (o.of_commit? commit).2.1
    | run => exact .inl rfl
    | skip => exact .inr rfl
  · rintro (hv | hv)
    · rw [Moment.commit?_of_run hv]
      rfl
    · rw [Moment.commit?_of_skip hv]
      rfl

omit con in
/-- When a skip begins, what was claimed for it is no longer claimed. -/
private theorem claims_of_mark (x : Choice) {g : Name} {claimed : List Step} {rest : List Call}
    (agenda : m.agenda = .skip g claimed :: rest) (n : Name) :
    (m.next x).status n = m.status n ∧ m.weight (claims n) ≤ 1 ∧
      m.weight (claims n) = (claimed.map (·.name)).count n + (m.next x).weight (claims n) := by
  have le := (m.claims_le_covers n).trans (o.covers_le n)
  obtain ⟨_, d⟩ := m
  cases agenda
  refine ⟨rfl, le, ?_⟩
  have gone : ((Moment.mk (.skip g claimed :: rest) d).next x).weight (claims n) =
      total (claims n) (d.skip g claimed).1 + total (claims n) rest := total_append ..
  rw [gone, total_skip_eq_zero (isWeight_claims n) (fun _ _ => rfl), Nat.zero_add]
  rfl

omit con in
/-- When a skip begins, what was claimed for it is announced. -/
private theorem out_of_mark (x : Choice) {g : Name} {claimed : List Step} {rest : List Call}
    (agenda : m.agenda = .skip g claimed :: rest) (n : Name) :
    ((m.next x).Out n ↔ m.Out n ∨ n ∈ claimed.map (·.name)) ∧
      ¬ (m.Out n ∧ n ∈ claimed.map (·.name)) := by
  obtain ⟨status, le, moved⟩ := o.claims_of_mark x agenda n
  unfold Moment.Out
  rw [status, ← List.count_pos_iff]
  by_cases pos : 0 < (claimed.map (·.name)).count n
  · have active : m.status n ≠ .waiting := fun waits => by
      have := o.claims_of_waiting waits
      omega
    refine ⟨iff_of_true ⟨active, by omega⟩ (.inr pos), ?_⟩
    rintro ⟨⟨-, zero⟩, -⟩
    omega
  · have same : (m.next x).weight (claims n) = m.weight (claims n) := by omega
    simp [same, pos]

/-- What is not claimed leaves its waiting when it is committed itself. -/
private theorem out_of_unclaimed (c : Change m m') {n : Name}
    (weight : m'.weight (claims n) = m.weight (claims n)) (unclaimed : m.verdict? n ≠ some .claim) :
    (m'.Out n ↔ m.Out n ∨ m.verdict? n = some .run ∨ m.verdict? n = some .skip) ∧
      ¬ (m.Out n ∧ (m.verdict? n = some .run ∨ m.verdict? n = some .skip)) := by
  unfold Moment.Out
  rw [weight]
  rcases o.passes con c n with ⟨v, hv, before, now⟩ | ⟨code, -, hv, before, now⟩ | ⟨hv, -, same⟩
  · have free := o.claims_of_waiting before
    cases v with
    | run | skip => simp [hv, before, now, free]
    | claim => exact absurd hv unclaimed
  · simp [hv, before, now, Status.ofExitCode_ne_waiting]
  · simp [hv, same]

/-- What is claimed waits until then, and it is claimed after that. -/
private theorem out_of_claimed {n : Name} (claim : m.verdict? n = some .claim)
    (claimed : 0 < m'.weight (claims n)) :
    (m'.Out n ↔ m.Out n ∨ m.verdict? n = some .run ∨ m.verdict? n = some .skip) ∧
      ¬ (m.Out n ∧ (m.verdict? n = some .run ∨ m.verdict? n = some .skip)) := by
  have waits := o.waiting_of_verdict? con claim
  simp only [claim, Option.some.injEq, reduceCtorEq, or_false, and_false, not_false_eq_true,
    and_true]
  refine iff_of_false (fun h => ?_) fun h => h.1 waits
  have := h.2
  omega

/-- A group is announced when it is committed, and with those that were claimed with it when their
skip begins. -/
private theorem announced_next_of_group {h : History} (x : Choice) {n : Name}
    (isGroup : f.isGroup n = true) :
    (Announced f (m.next x) (m :: h) n ↔ Announced f m h n ∨
      m.commit?.map (·.1) = some n ∨ n ∈ m.marked) ∧
    ¬ (Announced f m h n ∧ (m.commit?.map (·.1) = some n ∨ n ∈ m.marked)) := by
  have c := o.change_next x
  rw [announced_of_group isGroup, announced_of_group isGroup]
  by_cases marks : ∃ g claimed rest, m.agenda = .skip g claimed :: rest
  · obtain ⟨g, claimed, rest, agenda⟩ := marks
    have marked : m.marked = claimed.map (·.name) := by rw [Moment.marked, agenda]
    have commit? : m.commit? = none := by rw [Moment.commit?, agenda]
    simp only [marked, commit?, Option.map_none, reduceCtorEq, false_or]
    exact o.out_of_mark x agenda n
  · have unmarked : ∀ g claimed rest, m.agenda ≠ .skip g claimed :: rest :=
      fun g claimed rest h => marks ⟨g, claimed, rest, h⟩
    have marked : n ∉ m.marked := by
      unfold Moment.marked
      split
      · rename_i g claimed rest agenda
        exact absurd agenda (unmarked _ _ _)
      · exact List.not_mem_nil
    simp only [marked, or_false, o.commit?_iff]
    rcases o.claims_of_change con c unmarked with same | ⟨g, names, commit, under, claims'⟩
    · exact o.out_of_unclaimed con c (same n).1 (same n).2
    · have weight := claims' n
      by_cases inside : f.Under n g
      · have claim := (o.verdict?_eq_claim_iff con).2 ⟨g, inside, Moment.verdict?_self commit⟩
        have pos := List.count_pos_iff.2 ((under n).2 inside)
        exact o.out_of_claimed con claim (by omega)
      · have absent : names.count n = 0 := List.count_eq_zero.2 fun h => inside ((under n).1 h)
        rw [absent, Nat.zero_add] at weight
        refine o.out_of_unclaimed con c weight fun claim => ?_
        -- only what lies under the group that is committed is claimed
        obtain ⟨k, above, hk⟩ := (o.verdict?_eq_claim_iff con).1 claim
        rw [Moment.commit?_of_skip hk] at commit
        cases commit
        exact inside above

end Orderly

/-! ## Leaves whose start is announced -/

section Leaves

variable {f : Flow} {m : Moment} {h : History} (con : f.Consistent) (o : Orderly f m)
  (r : Recorded f m h) (p : Posted f m h) (t : Traced m h)

include con o r p

/-- Only leaves are announced by workers. -/
theorem isLeaf_of_announces {x : Choice} {n : Name} (a : m.run.Announces (m.next x).run n) :
    f.isLeaf n = true := by
  rcases a with ⟨-, now⟩ | ⟨before, -⟩
  · exact (((p.next con o r x).staged n).1 (by rw [now]; rfl)).1
  · exact ((p.staged n).1 (by rw [before]; rfl)).1

include t

/-- A leaf is announced when its worker announces it. -/
private theorem announced_next_of_other (x : Choice) {n : Name} (other : f.isGroup n ≠ true) :
    (Announced f (m.next x) (m :: h) n ↔ Announced f m h n ∨ m.run.Announces (m.next x).run n) ∧
      ¬ (Announced f m h n ∧ m.run.Announces (m.next x).run n) := by
  have step := p.post_next r o x n
  have stays := fun v => @Recorded.verdict_stays f m h n r o con v
  rw [announced_of_other other, announced_of_other other, History.admitted_cons]
  have late : ∀ {s}, m.run.stages.get? n = some s → s.isLate = false →
      ¬ History.Admitted (m :: h) n := by
    intro s hs early admitted
    obtain ⟨s', hs', hl⟩ := t.late n admitted
    rw [hs] at hs'
    cases hs'
    rw [early] at hl
    cases hl
  -- first that it was announced before or is so now, then that it is not announced again
  constructor
  · constructor
    · rintro ((now | before) | ⟨skip, done⟩)
      · by_cases starting : m.run.stages.get? n = some .starting
        · exact .inl (.inl (History.admitted_cons.2 (.inl starting)))
        · exact .inr (.inl ⟨starting, now⟩)
      · exact .inl (.inl before)
      · -- the worker of a leaf that is to be skipped is done, and it was done or dispatched before
        have unrun : h.verdict n ≠ some .run := fun run => by
          rw [stays _ run] at skip
          cases skip
        have given : ∀ {s}, m.run.stages.get? n = some s → s.verdict? ≠ some .run :=
          fun hs hv => unrun (p.verdict n _ _ hs hv)
        rcases step.isDone done with before | dispatched | ⟨-, s, hs, early⟩ | starting | running
        · have committed := ((p.staged n).1 (by
            rw [show m.run.stages.get? n = some .done from before]; rfl)).2
          exact .inl (.inr ⟨committed.resolve_left unrun, before⟩)
        · exact .inr (.inr ⟨dispatched, done⟩)
        · exact absurd (Stage.verdict?_of_isEarly early) (given hs)
        · exact absurd rfl (given starting)
        · exact absurd rfl (given running)
    · rintro ((before | ⟨skip, done⟩) | (⟨-, now⟩ | ⟨dispatched, now⟩))
      · exact .inl (.inr before)
      · exact .inr ⟨stays _ skip, step.stays_done done⟩
      · exact .inl (.inl now)
      · exact .inr ⟨stays _ (p.verdict n _ .skip dispatched rfl), now⟩
  · -- the worker of a leaf that was announced is late, and it is early when it announces it
    rintro ⟨admitted | ⟨skip, done⟩, ⟨before, now⟩ | ⟨dispatched, now⟩⟩
    · obtain ⟨-, s, hs, early⟩ := (step.starting now).resolve_left before
      exact late hs (Stage.not_isLate_of_isEarly early) admitted
    · exact late dispatched rfl admitted
    · obtain ⟨-, s, hs, early⟩ := (step.starting now).resolve_left before
      have same : some s = some Stage.done := hs.symm.trans done
      cases same
      cases early
    · rw [done] at dispatched
      cases dispatched

/-- **The start of a step is announced once.** -/
theorem announced_next (x : Choice) (n : Name) :
    (Announced f (m.next x) (m :: h) n ↔ Announced f m h n ∨ m.Starts x n) ∧
      ¬ (Announced f m h n ∧ m.Starts x n) := by
  unfold Moment.Starts
  rw [o.flow]
  by_cases isGroup : f.isGroup n = true
  · have quiet : ¬ m.run.Announces (m.next x).run n := fun a => by
      have leaf := isLeaf_of_announces con o r p a
      exact absurd leaf (Flow.not_isLeaf_of_isGroup isGroup)
    simp only [isGroup, true_and, quiet, or_false]
    exact o.announced_next_of_group con x isGroup
  · simp only [isGroup, Bool.false_eq_true, false_and, false_or]
    exact announced_next_of_other con o r p t x isGroup

end Leaves

/-! ## What comes before the start of a claimed group -/

/-- Whether a call may end a step or close it. -/
def Call.Touches (k : Name) : Call → Prop
  | .complete n _ => n = k
  | .close g | .childFinished g _ => g = k
  | .skip g claimed => g = k ∨ k ∈ claimed.map (·.name)
  | _ => False

/-- A call touches what it touched before it was put on the agenda, the group of such a step, a step
that waits, or a leaf whose worker is about to launch. -/
theorem Coordinator.Makes.touches {c : Coordinator} {head call : Call} {k : Name}
    (makes : c.Makes head call) (touches : call.Touches k) :
    head.Touches k ∨ (∃ j, c.flow.groupOf? j = some k ∧ head.Touches j) ∨
      c.status k = .waiting ∨ c.stages.get? k = some .starting := by
  cases makes with
  | opened waits =>
    cases touches
    exact .inr (.inr (.inl waits))
  | skipped waits all =>
    rcases touches with rfl | inside
    · exact .inr (.inr (.inl waits))
    · exact .inr (.inr (.inl (all k inside)))
  | spared mem | inner mem =>
    cases touches
    exact .inl (.inr (List.mem_map_of_mem mem))
  | outer =>
    cases touches
    exact .inl (.inl rfl)
  | parent ends group =>
    cases touches
    refine .inr (.inl ⟨_, group, ?_⟩)
    rcases ends with rfl | rfl <;> rfl
  | child => exact .inl touches
  | abandoned here =>
    cases touches
    exact .inr (.inr (.inr here))
  | reaction _ _ requested => cases call <;> first | exact touches.elim | cases requested
  | started | root | inside | told | dependent | counted | again | delivery => exact touches.elim

/-- The start of a step is told first of all on the agenda, or the step is a group that was claimed
and nothing that comes before its start touches it or what lies under it. -/
def Heralded (f : Flow) (m : Moment) (h : History) (n : Name) : Prop :=
  ∀ pre post, m.agenda = pre ++ .notify (.started n) :: post → pre = [] ∨
    (h.verdict n = some .claim ∧
      ∀ call ∈ pre, ∀ k, (k = n ∨ f.Under k n) → ¬ call.Touches k)

section Heralds

variable {f : Flow} {m : Moment} {h : History} (con : f.Consistent) (o : Orderly f m)
  (r : Recorded f m h) (p : Posted f m h) {n : Name}

include o r p

/-- A call that touches a claimed group or what lies under it comes from one that did. -/
private theorem not_touches_fresh {head : Call} {rest : List Call} (x : Choice)
    (agenda : m.agenda = head :: rest) (claim : h.verdict n = some .claim)
    (quiet : ∀ k, (k = n ∨ f.Under k n) → ¬ head.Touches k) {call : Call}
    (mem : call ∈ m.fresh x) {k : Name} (inside : k = n ∨ f.Under k n) : ¬ call.Touches k := by
  intro touches
  have claimed : h.verdict k = some .claim := by
    rcases inside with rfl | under
    · exact claim
    · exact r.claim_of_under under (.inr claim)
  rw [Moment.fresh, agenda] at mem
  rcases (makes_of_mem_perform mem).touches touches with old | ⟨j, hj, old⟩ | waits | starting
  · exact quiet k inside old
  · rw [o.flow] at hj
    refine quiet j (.inr ?_) old
    rcases inside with rfl | under
    · exact .of_groupOf? hj
    · exact (Flow.Under.of_groupOf? hj).trans under
  · exact r.status_ne_waiting claimed waits
  · have run := p.verdict k _ .run starting rfl
    rw [claimed] at run
    cases run

include con

/-- **Every move keeps starts heralded.** -/
theorem Heralded.next (j : Judged f m h) (her : Heralded f m h n) (x : Choice) :
    Heralded f (m.next x) (m :: h) n := by
  intro pre post split
  obtain ⟨events, told, one, -⟩ := o.tells_fresh x
  rw [m.agenda_next] at split
  rcases append_eq_split split with ⟨mid, rfl, tail⟩ | ⟨mid, fresh⟩
  · -- the start was on the agenda before, behind the call that is carried out now
    cases agenda : m.agenda with
    | nil =>
      rw [agenda] at tail
      simp at tail
    | cons head rest =>
      rw [agenda, List.tail_cons] at tail
      rcases her (head :: mid) post (by rw [agenda, tail]; rfl) with first | ⟨claim, quiet⟩
      · cases first
      · refine .inr ⟨r.verdict_stays o con claim, fun call mem k inside => ?_⟩
        rcases List.mem_append.1 mem with new | old
        · exact not_touches_fresh o r p x agenda claim (quiet head List.mem_cons_self) new inside
        · exact quiet call (List.mem_cons_of_mem _ old) k inside
  · -- the start is new, so only other starts come before it, and only when a skip begins
    obtain ⟨earlier, later, rfl, rfl⟩ := told.before fresh
    rcases one n (by simp) with short | marked
    · refine .inl ?_
      cases earlier with
      | nil => rfl
      | cons e earlier => simp at short
    · refine .inr ⟨r.verdict_stays o con ?_, fun call mem k _ touches => ?_⟩
      · unfold Moment.marked at marked
        split at marked
        · rename_i g claimed rest agenda
          have here : Call.skip g claimed ∈ m.agenda := by rw [agenda]; exact List.mem_cons_self
          have covered : 0 < m.weight (covers g) :=
            total_pos_of_mem here (by rw [covers, if_pos rfl]; omega)
          exact r.claim_of_under (((o.skips g claimed here).2.2 n).1 marked) (j.covered g covered)
        · cases marked
      · obtain ⟨e, -, rfl⟩ := List.mem_map.1 mem
        cases touches

end Heralds

/-! ## The tale -/

@[simp] theorem endsOf_append (n : Name) (l k : List (Name × Int)) :
    endsOf n (l ++ k) = endsOf n l ++ endsOf n k := by
  simp [endsOf]

theorem mem_endsOf {n : Name} {ends : List (Name × Int)} {e : Event} :
    e ∈ endsOf n ends ↔ ∃ code, (n, code) ∈ ends ∧ e = .completed n code := by
  simp only [endsOf, List.mem_map, List.mem_filter, decide_eq_true_eq]
  constructor
  · rintro ⟨⟨k, code⟩, ⟨mem, rfl⟩, rfl⟩
    exact ⟨code, mem, rfl⟩
  · rintro ⟨code, mem, rfl⟩
    exact ⟨(n, code), ⟨mem, rfl⟩, rfl⟩

/-- The **tale** of a step, whose executor has put out some lines, is in order. -/
structure Tale (f : Flow) (m : Moment) (h : History) (n : Name) (lines : List String) : Prop where
  /-- What is told of the step: its start, the lines and its end. -/
  told : (tidings m h).filter (·.step = n) =
    (if Announced f m h n then [.started n] else []) ++ lines.map (.output n) ++
      endsOf n h.ends.reverse
  /-- Only an executor that has begun has put out lines. -/
  executed : lines ≠ [] → m.run.executions.get? n ≠ none
  /-- The start comes before all that touches the step. -/
  heralded : Heralded f m h n
  /-- While a line is to be told the worker runs. -/
  running : ∀ line, .notify (.output n line) ∈ m.agenda → m.run.stages.get? n = some .running

section Tales

variable {f : Flow} {m : Moment} {h : History} (con : f.Consistent) (o : Orderly f m)
  (r : Recorded f m h) (p : Posted f m h) {n : Name}

include r in
/-- A step that has not ended has no end. -/
theorem Recorded.endsOf_eq_nil (running : (m.status n).isTerminal = false) :
    endsOf n h.ends.reverse = [] := by
  rw [List.eq_nil_iff_forall_not_mem]
  intro e mem
  obtain ⟨code, mem, -⟩ := mem_endsOf.1 mem
  rw [r.status_of_end n code (List.mem_reverse.1 mem), Status.isTerminal_ofExitCode] at running
  cases running

include p in
/-- The worker of a leaf that has an execution runs or is done. -/
theorem Posted.stage_of_execution (executed : m.run.executions.get? n ≠ none) :
    m.run.stages.get? n = some .running ∨ m.run.stages.get? n = some .done := by
  by_contra neither
  rw [not_or] at neither
  exact executed (Post.eq_none_of_fits (p.fits n) neither.1 neither.2)

include p in
/-- Only leaves have executions. -/
theorem Posted.isLeaf_of_execution (executed : m.run.executions.get? n ≠ none) :
    f.isLeaf n = true := by
  rcases p.stage_of_execution executed with hs | hs <;>
    exact ((p.staged n).1 (by rw [hs]; rfl)).1

include o p in
/-- A leaf whose executor is asked is in progress, and its worker runs. -/
private theorem of_emits {x : Choice} (emits : m.emits x n ≠ []) :
    m.agenda = [] ∧ m.run.stages.get? n = some .running ∧
      (m.next x).run.stages.get? n = some .running ∧ m.run.executions.get? n ≠ none ∧
      (m.status n).isTerminal = false := by
  obtain ⟨idle, stages, e, he, live⟩ := Moment.of_emits emits
  have fits := p.fits n
  rw [Coordinator.post, he] at fits
  have runs : m.run.stages.get? n = some .running := Post.eq_running_of_fits fits live
  refine ⟨idle, runs, by rw [stages, runs], by simp [he], ?_⟩
  rw [(o.of_stage runs (by decide)).2]
  rfl

include o in
/-- A group that is announced has not ended, and is not ended by the same move. -/
private theorem active_of_start (x : Choice)
    (how : m.commit?.map (·.1) = some n ∨ n ∈ m.marked) :
    (m.status n).isTerminal = false ∧ ∀ code, m.ended? ≠ some (n, code) := by
  have c := o.change_next x
  rcases how with commit | marked
  · obtain ⟨⟨k, d⟩, hk, rfl⟩ := Option.map_eq_some_iff.1 commit
    have waits := (o.of_commit? hk).1
    refine ⟨by rw [waits]; rfl, fun code ended => ?_⟩
    rw [(o.of_ended? c ended).1] at waits
    cases waits
  · unfold Moment.marked at marked
    split at marked
    · rename_i g claimed rest agenda
      have covered : 0 < m.weight (covers n) := by
        have pos := List.count_pos_iff.2 marked
        exact total_pos_of_mem (by rw [agenda]; exact List.mem_cons_self) (by rw [covers]; omega)
      refine ⟨by rw [o.covered n covered]; rfl, fun code ended => ?_⟩
      have := o.covers_of_ended? c ended
      omega
    · cases marked

include o r p in
/-- A leaf that is announced has not ended, and its executor has not been launched. -/
private theorem active_of_announces {x : Choice} (announces : m.run.Announces (m.next x).run n) :
    (m.status n).isTerminal = false ∧ m.run.executions.get? n = none := by
  -- the worker has not announced its leaf, so it is not done and has no execution
  obtain ⟨s, hs, before⟩ : ∃ s, m.run.stages.get? n = some s ∧ s.isLate = false := by
    rcases announces with ⟨before, now⟩ | ⟨before, -⟩
    · obtain ⟨-, s, hs, early⟩ := ((p.post_next r o x n).starting now).resolve_left before
      exact ⟨s, hs, Stage.not_isLate_of_isEarly early⟩
    · exact ⟨_, before, rfl⟩
  have active := o.of_stage hs (by rintro rfl; cases before)
  refine ⟨by rw [active.2]; rfl, ?_⟩
  by_contra executed
  rcases p.stage_of_execution executed with h | h <;> rw [hs] at h <;> cases h <;> cases before

include o r p in
/-- Nothing else has happened to a step when its start is announced. -/
private theorem of_starts {x : Choice} (starts : m.Starts x n) :
    (m.status n).isTerminal = false ∧ m.run.executions.get? n = none ∧ m.emits x n = [] ∧
      endsOf n m.ended?.toList = [] := by
  -- lines come from an execution, so it is enough that there is none and that the step is not ended
  suffices main : (m.status n).isTerminal = false ∧ m.run.executions.get? n = none ∧
      ∀ code, m.ended? ≠ some (n, code) by
    obtain ⟨running, none, unended⟩ := main
    refine ⟨running, none, ?_, ?_⟩
    · by_contra emits
      exact (of_emits o p emits).2.2.2.1 none
    · rw [List.eq_nil_iff_forall_not_mem]
      intro e mem
      obtain ⟨code, mem, -⟩ := mem_endsOf.1 mem
      exact unended code (by simpa using mem)
  rcases starts with ⟨isGroup, how⟩ | announces
  · obtain ⟨running, unended⟩ := active_of_start o x how
    refine ⟨running, ?_, unended⟩
    by_contra executed
    rw [o.flow] at isGroup
    exact absurd (p.isLeaf_of_execution executed) (Flow.not_isLeaf_of_isGroup isGroup)
  · obtain ⟨running, none⟩ := active_of_announces o r p announces
    refine ⟨running, none, fun code ended => ?_⟩
    -- workers announce leaves in their turn, when nothing is left to do on the spot
    have idle : m.agenda = [] := by
      by_contra busy
      exact (o.shift_next x).not_announces busy n announces
    rw [Moment.ended?, idle] at ended
    cases ended

namespace Tale

variable {lines : List String} (t : Traced m h) (tale : Tale f m h n lines)

include tale

theorem ended_of_mem (r : Recorded f m h) {code : Int}
    (mem : .completed n code ∈ tidings m h) : m.status n = .ofExitCode code := by
  have mine : Event.completed n code ∈ (tidings m h).filter (·.step = n) :=
    List.mem_filter.2 ⟨mem, by simp [Event.step]⟩
  rw [tale.told, List.mem_append, List.mem_append] at mine
  rcases mine with (start | line) | ends
  · split at start <;> simp at start
  · simp at line
  · obtain ⟨code', mem, same⟩ := mem_endsOf.1 ends
    cases same
    exact r.status_of_end n code (List.mem_reverse.1 mem)

include con o r p in
/-- Nothing has been told of a step before its start is announced. -/
private theorem untold_of_starts (t : Traced m h) {x : Choice} (starts : m.Starts x n) :
    lines = [] ∧ endsOf n h.ends.reverse = [] ∧ (tidings m h).filter (·.step = n) = [] := by
  obtain ⟨running, none, -, -⟩ := of_starts o r p starts
  have new : ¬ Announced f m h n := fun old =>
    (announced_next con o r p t x n).2 ⟨old, starts⟩
  have silent : lines = [] := by
    by_contra some_
    exact tale.executed some_ none
  have unended := r.endsOf_eq_nil running
  refine ⟨silent, unended, ?_⟩
  rw [tale.told, if_neg new, silent, unended]
  rfl

section Ended

variable {x : Choice} {code : Int} (ended : m.ended? = some (n, code))

include o ended

/-- The start of a step does not stand behind the call that ends it. -/
private theorem started_notMem_of_ended (x : Choice) : .notify (.started n) ∉ m.agenda.tail := by
  intro later
  obtain ⟨call, rest, agenda, cause, -⟩ := (o.change_next x).finish_of_ended? ended
  rw [agenda, List.tail_cons] at later
  obtain ⟨pre, post, split⟩ := List.append_of_mem later
  rcases tale.heralded (call :: pre) post (by rw [agenda, split]; rfl) with first | ⟨-, quiet⟩
  · cases first
  · -- the call touches the step
    refine quiet call List.mem_cons_self n (.inl rfl) ?_
    rcases cause with rfl | ⟨rfl, -⟩ <;> exact rfl

/-- When a step ends no line of it is left to be told. -/
private theorem output_notMem_of_ended (x : Choice) (line : String) :
    .notify (.output n line) ∉ m.agenda := by
  intro pending
  obtain ⟨call, rest, agenda, cause, -⟩ := (o.change_next x).finish_of_ended? ended
  have works : m.run.works n = 1 := by
    rw [Coordinator.works, Table.weightAt_of_get? (tale.running line pending)]
    rfl
  -- a leaf whose worker runs is not completed, and it is no group
  rcases cause with rfl | ⟨rfl, -⟩
  · have completes : 0 < m.weight (completes n) :=
      total_pos_of_mem (by rw [agenda]; exact List.mem_cons_self) (by simp [completes])
    have := (o.of_completes completes).2.2.1
    omega
  · have isGroup := (o.closes n (by rw [agenda]; exact List.mem_cons_self)).1
    have isLeaf := (o.of_works (n := n) (by omega)).1
    exact absurd isLeaf (Flow.not_isLeaf_of_isGroup isGroup)

include r in
/-- The end of a step is not made twice. -/
private theorem completed_notMem_of_ended (x : Choice) (last : Int) :
    .completed n last ∉ tidings m h := by
  intro mem
  have status := tale.ended_of_mem r mem
  rw [(o.of_ended? (o.change_next x) ended).1] at status
  exact Status.ofExitCode_ne_inProgress last status.symm

end Ended

include con o r p in
/-- Nothing about a step is still to be told when something is made about it. -/
private theorem alone (t : Traced m h) (x : Choice)
    (made : (if m.Starts x n then [Event.started n] else []) ++ (m.emits x n).map (.output n) ++
      endsOf n m.ended?.toList ≠ []) :
    (toTell m.agenda.tail).filter (·.step = n) = [] := by
  obtain ⟨told, all, -⟩ := tidings_next m h x
  by_cases starts : m.Starts x n
  · have nothing := (tale.untold_of_starts con o r p t starts).2.2
    rw [all, List.filter_append] at nothing
    exact (List.append_eq_nil_iff.1 nothing).2
  · by_cases mute : m.emits x n = []
    · rw [if_neg starts, mute, List.map_nil, List.nil_append, List.nil_append] at made
      obtain ⟨e, mem⟩ := List.exists_mem_of_ne_nil _ made
      obtain ⟨code, ended, -⟩ := mem_endsOf.1 mem
      have ended : m.ended? = some (n, code) := by simpa using ended
      rw [List.eq_nil_iff_forall_not_mem]
      intro e mem
      obtain ⟨later, step⟩ := List.mem_filter.1 mem
      have step : e.step = n := of_decide_eq_true step
      have pending := mem_toTell.1 later
      subst step
      cases e with
      | started k => exact tale.started_notMem_of_ended o ended x pending
      | output k line =>
        exact tale.output_notMem_of_ended o ended x line (List.mem_of_mem_tail pending)
      | completed k last =>
        refine tale.completed_notMem_of_ended o r ended x last ?_
        rw [all]
        exact List.mem_append_right _ later
    · rw [(of_emits o p mute).1]
      rfl

include con o r p t

/-- **Every move keeps a tale in order.** -/
theorem next (j : Judged f m h) (x : Choice) :
    Tale f (m.next x) (m :: h) n (lines ++ m.emits x n) := by
  have step := p.post_next r o x n
  obtain ⟨events, told, -, ofStep⟩ := o.tells_fresh x
  have fresh := (congrArg (List.filter (·.step = n)) told.toTell_eq).trans (ofStep n)
  exact
    { told := by
        rw [filter_tidings_next fresh (tale.alone con o r p t x), tale.told, History.ends_cons,
          List.reverse_append, endsOf_append, List.map_append]
        have last : m.ended?.toList.reverse = m.ended?.toList := by cases m.ended? <;> rfl
        have announced := announced_next con o r p t x n
        rw [last]
        by_cases starts : m.Starts x n
        · obtain ⟨-, -, mute, unended⟩ := of_starts o r p starts
          obtain ⟨silent, before, -⟩ := tale.untold_of_starts con o r p t starts
          rw [if_pos starts, if_pos (announced.1.2 (.inr starts)),
            if_neg fun old => announced.2 ⟨old, starts⟩, silent, mute, unended, before]
          rfl
        · have same : Announced f (m.next x) (m :: h) n ↔ Announced f m h n := by
            rw [announced.1, or_iff_left starts]
          rw [if_neg starts]
          simp only [same, List.nil_append]
          by_cases mute : m.emits x n = []
          · rw [mute]
            simp only [List.map_nil, List.nil_append, List.append_nil, List.append_assoc]
          · -- while lines are put out the leaf has not ended
            obtain ⟨idle, -, -, -, running⟩ := of_emits o p mute
            rw [r.endsOf_eq_nil running]
            simp only [List.append_nil, List.append_assoc, List.nil_append]
      executed := fun some_ => by
        by_cases silent : lines = []
        · rw [silent, List.nil_append] at some_
          exact step.execution_stays (of_emits o p some_).2.2.2.1
        · exact step.execution_stays (tale.executed silent)
      heralded := tale.heralded.next con o r p j x
      running := fun line mem => by
        rw [m.agenda_next, List.mem_append] at mem
        rcases mem with new | old
        · have mine : Event.output n line ∈ (toTell (m.fresh x)).filter (·.step = n) :=
            List.mem_filter.2 ⟨mem_toTell.2 new, by simp [Event.step]⟩
          rw [fresh, List.mem_append, List.mem_append] at mine
          rcases mine with (start | emitted) | ends
          · split at start <;> simp at start
          · have emits : m.emits x n ≠ [] := fun none => by rw [none] at emitted; cases emitted
            exact (of_emits o p emits).2.2.1
          · obtain ⟨code, -, same⟩ := mem_endsOf.1 ends
            cases same
        · have pending : .notify (.output n line) ∈ m.agenda := List.mem_of_mem_tail old
          have runs := tale.running line pending
          have busy : m.agenda ≠ [] := List.ne_nil_of_mem pending
          rcases (o.shift_next x).stage_of_busy busy n with (same | ⟨queued, -⟩) | ⟨waits, -⟩ |
            ⟨starting, -⟩
          · rw [same, runs]
          · rw [runs] at queued
            cases queued
          · rw [p.free r waits] at runs
            cases runs
          · rw [runs] at starting
            cases starting }

omit con o r p t tale in
theorem initial (f : Flow) (workers : Nat) (registry : Registry) (n : Name) :
    Tale f (Moment.initial f workers registry) [] n [] where
  told := by
    have new : ¬ Announced f (Moment.initial f workers registry) [] n := by
      unfold Announced
      split
      · exact fun h => h.1 (Moment.status_initial f workers registry n)
      · rintro (admitted | ⟨skip, -⟩)
        · obtain ⟨s, hs, -⟩ := (Traced.initial f workers registry).late n admitted
          cases hs
        · cases skip
    rw [if_neg new]
    rfl
  executed h := absurd rfl h
  heralded pre post h := by cases pre <;> cases h
  running line h := by cases h

end Tale

end Tales

/-! ## Tales of runs -/

/-- The lines that the executor of a step has **put out** in a run, in order. -/
def Setup.emitted (s : Setup) (n : Name) : List Choice → List String
  | [] => []
  | x :: earlier => s.emitted n earlier ++ (s.after earlier).emits x n

namespace Setup

variable (s : Setup)

/-- Every moment of every run is traced. -/
theorem traced (xs : List Choice) : Traced (s.after xs) (s.past xs) := by
  induction xs with
  | nil =>
    rw [after, Moment.after_nil, s.start_eq]
    exact .initial s.flow s.workers s.registry
  | cons x earlier ih =>
    have sound := s.sound earlier
    exact ih.next s.wellFormed sound.orderly sound.recorded sound.posted x

/-- **The tale of every step is in order at every moment of every run.** -/
theorem tale (n : Name) (xs : List Choice) :
    Tale s.flow (s.after xs) (s.past xs) n (s.emitted n xs) := by
  induction xs with
  | nil =>
    rw [after, Moment.after_nil, s.start_eq]
    exact .initial s.flow s.workers s.registry n
  | cons x earlier ih =>
    have sound := s.sound earlier
    exact ih.next s.wellFormed sound.orderly sound.recorded sound.posted (s.traced earlier)
      sound.judged x

end Setup

end StepFlow
